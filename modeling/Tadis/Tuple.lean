import Tadis.Ast

/-!
# Schemas and rows

`createTuple` writes a row as the concatenation of its values; `valueAt` walks the columns of the
schema up to the one it reads. Both go wrong (`none`) where an assertion fails, and `valueAt` also
where it reads outside the bytes of the row.
-/

namespace Tadis

/-- `enum class ColumnType : int`. A cast makes a type of every `int`, also of one that no enumerator
has. -/
inductive ColumnType
  | int
  | float
  | varchar
  | char
  | unknown
  | other (n : Int32) (h : n.toInt < 0 ∨ 4 < n.toInt)
  deriving DecidableEq, Repr

/-- For a number that no enumerator has the source returns nothing in particular. -/
def checkAttrType (attrType : AttrType) : ColumnType → Bool
  | .int => attrType = .ints
  | .float => attrType = .floats
  | .varchar => attrType = .string
  | .char => attrType = .string
  | .unknown | .other _ _ => false

structure Column where
  type : ColumnType := .unknown
  name : Bytes := []
  size : ℕ := 0
  deriving DecidableEq, Repr

structure Schema where
  columns : List Column
  deriving DecidableEq, Repr

/-- `none` for `-1`. -/
def Schema.columnIdx (s : Schema) (name : Bytes) : Option ℕ :=
  s.columns.findIdx? (fun c => c.name = name)

/-- `none` when an index is out of range. -/
def Schema.copySchema (s : Schema) (attr : List ℕ) : Option Schema :=
  (attr.mapM (fun i => s.columns[i]?)).map Schema.mk

structure Tuple where
  data : Bytes
  rid : RID := {}
  deriving DecidableEq, Repr

def encodeInt (n : Int32) : Bytes := LittleEndian.encode 4 n.toUInt32.toNat

def decodeInt (bs : Bytes) : Int32 := (UInt32.ofNat (LittleEndian.decode bs)).toInt32

/-- An `int` converted to `size_t`. -/
def intToSize (n : Int32) : ℕ := (n.toInt % 2 ^ 64).toNat

@[simp] theorem length_encodeInt (n : Int32) : (encodeInt n).length = 4 :=
  LittleEndian.length_encode 4 _

theorem decode_encode_uint32 (u : UInt32) :
    UInt32.ofNat (LittleEndian.decode (LittleEndian.encode 4 u.toNat)) = u := by
  have hlt : u.toNat < 256 ^ 4 := u.toNat_lt
  rw [LittleEndian.decode_encode_of_lt hlt, UInt32.ofNat_toNat]

theorem encode_decode_uint32 {bs : Bytes} (h : bs.length = 4) :
    LittleEndian.encode 4 (UInt32.ofNat (LittleEndian.decode bs)).toNat = bs := by
  have hlt : LittleEndian.decode bs < 2 ^ 32 := by
    simpa [h] using LittleEndian.decode_lt bs
  rw [UInt32.toNat_ofNat_of_lt' hlt, ← h, LittleEndian.encode_decode]

@[simp] theorem decodeInt_encodeInt (n : Int32) : decodeInt (encodeInt n) = n := by
  rw [decodeInt, encodeInt, decode_encode_uint32, Int32.toInt32_toUInt32]

theorem encodeInt_decodeInt {bs : Bytes} (h : bs.length = 4) : encodeInt (decodeInt bs) = bs := by
  rw [encodeInt, decodeInt, UInt32.toUInt32_toInt32, encode_decode_uint32 h]

theorem toInt64_toInt32_eq_iff (n : Int64) :
    n.toInt32.toInt64 = n ↔ -2 ^ 31 ≤ n.toInt ∧ n.toInt < 2 ^ 31 := by
  rw [← Int64.toInt_inj, Int32.toInt_toInt64, Int64.toInt_toInt32, Int.bmod_def]
  omega

theorem toInt_ofNat_eq_iff (k : ℕ) : (Int32.ofNat k).toInt = k ↔ k < 2 ^ 31 := by
  have hsize : Int32.size = 2 ^ 32 := rfl
  rw [Int32.toInt_ofNat', Int.bmod_def, hsize]
  omega

theorem toInt_ofNat_le (k : ℕ) : (Int32.ofNat k).toInt ≤ k := by
  have hsize : Int32.size = 2 ^ 32 := rfl
  rw [Int32.toInt_ofNat', Int.bmod_def, hsize]
  omega

def encodeValue (c : Column) : Value → Option Bytes
  | .ints n => if c.type = .int then some (encodeInt n.toInt32) else none
  | .floats f => if c.type = .float then some (LittleEndian.encode 4 f.toNat) else none
  | .string s =>
    if c.type = .varchar then some (encodeInt (Int32.ofNat s.length) ++ s)
    else if c.type = .char then some s
    else none
  | _ => none

def encodeRow : List Value → List Column → Option Bytes
  | [], _ => some []
  | _ :: _, [] => none
  | v :: vals, c :: cols =>
    match encodeValue c v, encodeRow vals cols with
    | some bytes, some rest => some (bytes ++ rest)
    | _, _ => none

def Tuple.createTuple (vals : List Value) (schema : Schema) : Option Tuple :=
  (encodeRow vals schema.columns).map (fun data => { data := data })

/-- Copy `k` bytes from offset `off` of the row. -/
def readBytes (data : Bytes) (off k : ℕ) : Option Bytes :=
  if off + k ≤ data.length then some ((data.drop off).take k) else none

def readInt (data : Bytes) (off : ℕ) : Option Int32 := (readBytes data off 4).map decodeInt

/-- Move the cursor by the `size_t` `k`. A large one moves it back. -/
def advance (data : Bytes) (off k : ℕ) : Option ℕ :=
  if off + k ≤ data.length then some (off + k)
  else if 2 ^ 64 ≤ off + k ∧ off + k - 2 ^ 64 ≤ data.length then some (off + k - 2 ^ 64)
  else none

/-- A string of negative size cannot be built. -/
def initValue (data : Bytes) (off : ℕ) (size : Int32) : ColumnType → Option Value
  | .int => (readInt data off).map (fun n => .ints n.toInt64)
  | .float =>
    (readBytes data off 4).map (fun bs => .floats (UInt32.ofNat (LittleEndian.decode bs)))
  | .char | .varchar =>
    if 0 ≤ size.toInt then (readBytes data off size.toInt.toNat).map .string else none
  | .unknown | .other _ _ => none

/-- Skip the value of column `c`. -/
def skipValue (data : Bytes) (off : ℕ) (c : Column) : Option ℕ :=
  match c.type with
  | .int | .float => advance data off 4
  | .char => advance data off c.size
  | .varchar =>
    (readInt data off).bind (fun size => advance data off ((4 + intToSize size) % 2 ^ 64))
  | .unknown | .other _ _ => none

/-- Read the value of column `c`. -/
def readValue (data : Bytes) (off : ℕ) (c : Column) : Option Value :=
  match c.type with
  | .varchar => (readInt data off).bind (fun size => initValue data (off + 4) size c.type)
  | .char => initValue data off (Int32.ofNat c.size) c.type
  | _ => initValue data off 0 c.type

def valueFrom (data : Bytes) : ℕ → List Column → ℕ → Option Value
  | _, [], _ => none
  | off, c :: _, 0 => readValue data off c
  | off, c :: cols, i + 1 => (skipValue data off c).bind (fun off => valueFrom data off cols i)

def Tuple.valueAt (t : Tuple) (schema : Schema) (idx : ℕ) : Option Value :=
  valueFrom t.data 0 schema.columns idx

end Tadis
