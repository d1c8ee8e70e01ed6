import Tadis.Basic

/-!
# JSON values

The values of the metadata files and their text. The numbers are doubles; their type is a parameter,
and so is their decimal text. An object is an ordered map, given by its members in the order of their
names.
-/

namespace Tadis.Pson

inductive Json (ν : Type)
  | null
  | bool (b : Bool)
  | number (x : ν)
  | string (s : Bytes)
  | array (values : List (Json ν))
  | object (members : List (Bytes × Json ν))

variable {ν : Type}

/-- A member that is there already is kept. -/
def emplace (name : Bytes) (v : Json ν) : List (Bytes × Json ν) → List (Bytes × Json ν)
  | [] => [(name, v)]
  | (k, w) :: ms =>
    if name < k then (name, v) :: (k, w) :: ms
    else if name = k then (k, w) :: ms
    else (k, w) :: emplace name v ms

def lookup (name : Bytes) (members : List (Bytes × Json ν)) : Option (Json ν) :=
  (members.find? (fun m => m.1 = name)).map Prod.snd

theorem emplace_last {name : Bytes} {v : Json ν} {ms : List (Bytes × Json ν)}
    (h : ∀ m ∈ ms, m.1 < name) : emplace name v ms = ms ++ [(name, v)] := by
  induction ms with
  | nil => rfl
  | cons m ms ih =>
    have hlt := h m List.mem_cons_self
    have hne : name ≠ m.1 := by
      rintro rfl
      exact List.lt_irrefl _ hlt
    rw [emplace, if_neg (List.lt_asymm hlt), if_neg hne,
      ih (fun k hk => h k (List.mem_cons_of_mem _ hk)), List.cons_append]

/-- The members in the order in which they are put into the map. -/
def build (ms : List (Bytes × Json ν)) : List (Bytes × Json ν) :=
  ms.foldl (fun acc m => emplace m.1 m.2 acc) []

abbrev Ordered (ms : List (Bytes × Json ν)) : Prop := ms.Pairwise (fun m m' => m.1 < m'.1)

theorem foldl_emplace {acc ms : List (Bytes × Json ν)} (h : Ordered (acc ++ ms)) :
    ms.foldl (fun acc m => emplace m.1 m.2 acc) acc = acc ++ ms := by
  induction ms generalizing acc with
  | nil => simp
  | cons m ms ih =>
    have hm : ∀ k ∈ acc, k.1 < m.1 := fun k hk =>
      (List.pairwise_append.1 h).2.2 k hk m List.mem_cons_self
    rw [List.foldl_cons, emplace_last hm, ih (by simpa using h)]
    simp

theorem build_eq {ms : List (Bytes × Json ν)} (h : Ordered ms) : build ms = ms :=
  foldl_emplace h

variable (toString : ν → Bytes)

def quoted (s : Bytes) : Bytes := str "\"" ++ s ++ str "\""

mutual

def printValue : Json ν → Bytes
  | .null => str "null"
  | .bool true => str "true"
  | .bool false => str "false"
  | .number x => toString x
  | .string s => quoted s
  | .array values => str "[" ++ (str " , ").intercalate (printValues values) ++ str "]"
  | .object [] => str "{}"
  | .object (m :: ms) =>
    str "\x7b\n" ++ (str ", \n").intercalate (printMembers (m :: ms)) ++ str "\n\x7d"

def printValues : List (Json ν) → List Bytes
  | [] => []
  | v :: vs => printValue v :: printValues vs

def printMembers : List (Bytes × Json ν) → List Bytes
  | [] => []
  | (name, v) :: ms => (quoted name ++ str " : " ++ printValue v) :: printMembers ms

end

def print (members : List (Bytes × Json ν)) : Bytes := printValue toString (.object members)

end Tadis.Pson
