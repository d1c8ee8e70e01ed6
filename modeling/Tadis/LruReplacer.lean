import Mathlib.Data.List.AList
import Tadis.Basic

/-!
# The LRU replacer

`lru_list_` is a linked list and `dir_` maps each element to an iterator into it. An iterator is
the identity of a list node, so the list is kept as nodes paired with their elements and a fresh
identity is drawn for every node that is pushed. `Inv` says that `dir_` and the list agree;
under it the operations act on `items`, the elements from the most to the least recent.
-/

namespace Tadis

structure LruReplacer (T : Type) [DecidableEq T] where
  lruList : List (ℕ × T) := []
  dir : AList (fun _ : T => ℕ) := ∅
  freshNode : ℕ := 1
  capacity : ℕ

namespace LruReplacer

variable {T : Type} [DecidableEq T]

def create (cap : ℕ) : LruReplacer T := { capacity := cap }

def items (r : LruReplacer T) : List T := r.lruList.map Prod.snd

def eraseNode (l : List (ℕ × T)) (node : ℕ) : List (ℕ × T) := l.filter (fun x => x.1 ≠ node)

/-- `emplace` on the directory: an existing key keeps its node. -/
def emplace (d : AList (fun _ : T => ℕ)) (t : T) (node : ℕ) : AList (fun _ : T => ℕ) :=
  if (d.lookup t).isSome then d else d.insert t node

/-- The first half of `put`: drop the old node of `t`, or the least recent one of a full list.
With capacity zero `back` is read from an empty list; nothing is dropped then. -/
def makeRoom (r : LruReplacer T) (t : T) : LruReplacer T :=
  match r.dir.lookup t with
  | some node => { r with lruList := eraseNode r.lruList node, dir := r.dir.erase t }
  | none =>
    if r.capacity = r.lruList.length then
      match r.lruList.getLast? with
      | some back => { r with dir := r.dir.erase back.2, lruList := r.lruList.dropLast }
      | none => r
    else r

def pushFront (r : LruReplacer T) (t : T) : LruReplacer T :=
  { r with
    lruList := (r.freshNode, t) :: r.lruList
    dir := emplace r.dir t r.freshNode
    freshNode := r.freshNode + 1 }

def put (r : LruReplacer T) (t : T) : LruReplacer T := (r.makeRoom t).pushFront t

def remove (r : LruReplacer T) (t : T) : LruReplacer T :=
  match r.dir.lookup t with
  | some node => { r with lruList := eraseNode r.lruList node, dir := r.dir.erase t }
  | none => r

/-- `lru_list_.begin()`, where node 0 is the end of the list. -/
def begin (l : List (ℕ × T)) : ℕ := (l.head?.map Prod.fst).getD 0

/-- The directory is set before the node is pushed, so it does not lead to that node. An iterator of a
node that is not in the list comes up only after such a step; to erase it is undefined in the source
and does nothing here. -/
def touch (r : LruReplacer T) (t : T) : Bool × LruReplacer T :=
  match r.dir.lookup t with
  | some node =>
    let list := eraseNode r.lruList node
    (true, { r with
      lruList := (r.freshNode, t) :: list
      dir := r.dir.insert t (begin list)
      freshNode := r.freshNode + 1 })
  | none => (false, r)

def victim (r : LruReplacer T) : Option (T × LruReplacer T) :=
  match r.lruList.getLast? with
  | some back => some (back.2, { r with dir := r.dir.erase back.2, lruList := r.lruList.dropLast })
  | none => none

structure Inv (r : LruReplacer T) : Prop where
  nodes_nodup : (r.lruList.map Prod.fst).Nodup
  node_lt : ∀ x ∈ r.lruList, x.1 < r.freshNode
  dir_iff : ∀ t node, r.dir.lookup t = some node ↔ (node, t) ∈ r.lruList

theorem inv_create (cap : ℕ) : (create cap : LruReplacer T).Inv where
  nodes_nodup := by simp [create]
  node_lt := by simp [create]
  dir_iff := by simp [create]

@[simp] theorem items_create (cap : ℕ) : (create cap : LruReplacer T).items = [] := rfl

variable {r : LruReplacer T}

theorem mem_items {t : T} : t ∈ r.items ↔ ∃ node, (node, t) ∈ r.lruList := by
  simp [items]

theorem Inv.node_unique (h : r.Inv) {a b : ℕ} {t : T} (ha : (a, t) ∈ r.lruList)
    (hb : (b, t) ∈ r.lruList) : a = b := by
  have h1 := (h.dir_iff t a).2 ha
  have h2 := (h.dir_iff t b).2 hb
  exact Option.some.inj (h1.symm.trans h2)

theorem Inv.items_nodup (h : r.Inv) : r.items.Nodup := by
  apply List.Nodup.map_on _ (List.Nodup.of_map _ h.nodes_nodup)
  rintro ⟨a, t⟩ ha ⟨b, u⟩ hb rfl
  rw [h.node_unique ha hb]

theorem Inv.elem_unique (h : r.Inv) {a : ℕ} {t u : T} (ht : (a, t) ∈ r.lruList)
    (hu : (a, u) ∈ r.lruList) : t = u :=
  congrArg Prod.snd (List.inj_on_of_nodup_map h.nodes_nodup ht hu rfl)

theorem Inv.not_mem_items (h : r.Inv) {t : T} (ht : r.dir.lookup t = none) : t ∉ r.items := by
  rw [mem_items]
  rintro ⟨node, hn⟩
  rw [(h.dir_iff t node).2 hn] at ht
  cases ht

theorem Inv.items_eraseNode (h : r.Inv) {t : T} {node : ℕ} (ht : r.dir.lookup t = some node) :
    (eraseNode r.lruList node).map Prod.snd = r.items.erase t := by
  have hm := (h.dir_iff t node).1 ht
  rw [h.items_nodup.erase_eq_filter, items, List.filter_map, eraseNode]
  congr 1
  apply List.filter_congr
  rintro ⟨a, u⟩ hu
  have hau : a = node ↔ u = t := by
    constructor
    · rintro rfl
      exact h.elem_unique hu hm
    · rintro rfl
      exact h.node_unique hu hm
  by_cases hx : a = node
  · simp [hx, hau.1 hx]
  · have hu' : u ≠ t := fun he => hx (hau.2 he)
    simp [hx, hu']

theorem Inv.remove_inv (h : r.Inv) (t : T) : (r.remove t).Inv := by
  unfold remove
  cases ht : r.dir.lookup t with
  | none => exact h
  | some node =>
    have hm := (h.dir_iff t node).1 ht
    refine ⟨?_, ?_, ?_⟩
    · exact h.nodes_nodup.sublist (List.filter_sublist.map _)
    · exact fun x hx => h.node_lt x (List.mem_of_mem_filter hx)
    · intro u m
      by_cases hu : u = t
      · subst hu
        have hne : (m, u) ∈ r.lruList → m = node := fun hm' => h.node_unique hm' hm
        simpa [eraseNode, AList.lookup_erase] using hne
      · have hne : (m, u) ∈ r.lruList → m ≠ node := by
          rintro hm' rfl
          exact hu (h.elem_unique hm' hm)
        simp only [AList.lookup_erase_ne hu, h.dir_iff, eraseNode, List.mem_filter]
        simpa using hne

theorem Inv.items_remove (h : r.Inv) (t : T) : (r.remove t).items = r.items.erase t := by
  unfold remove
  cases ht : r.dir.lookup t with
  | none => exact (List.erase_of_not_mem (h.not_mem_items ht)).symm
  | some node => exact h.items_eraseNode ht

theorem victim_eq_none_iff : r.victim = none ↔ r.items = [] := by
  unfold victim items
  rw [List.map_eq_nil_iff, ← List.getLast?_eq_none_iff]
  cases r.lruList.getLast? <;> simp

theorem Inv.dropLast_inv (h : r.Inv) {back : ℕ × T} (hb : r.lruList.getLast? = some back) :
    Inv { r with dir := r.dir.erase back.2, lruList := r.lruList.dropLast } := by
  obtain ⟨front, hl⟩ := List.getLast?_eq_some_iff.1 hb
  have hmem : ∀ x, x ∈ r.lruList ↔ x ∈ front ∨ x = back := by simp [hl]
  have hnd := h.nodes_nodup
  rw [hl, List.map_append, List.map_singleton] at hnd
  refine ⟨?_, ?_, ?_⟩
  · simpa [hl] using hnd.of_append_left
  · intro x hx
    exact h.node_lt x (List.mem_of_mem_dropLast hx)
  · intro u m
    have hdrop : r.lruList.dropLast = front := by simp [hl]
    simp only [hdrop]
    by_cases hu : u = back.2
    · subst hu
      have hno : (m, back.2) ∉ front := by
        intro hf
        have hmb : m = back.1 := h.node_unique ((hmem _).2 (.inl hf)) ((hmem _).2 (.inr rfl))
        have := (List.nodup_append.1 hnd).2.2 m (List.mem_map_of_mem hf) back.1 (by simp)
        exact this hmb
      simpa [AList.lookup_erase] using hno
    · have hne : (m, u) ≠ back := fun he => hu (congrArg Prod.snd he)
      rw [AList.lookup_erase_ne hu, h.dir_iff, hmem]
      simp [hne]

/-- `victim` takes the least recent element off the list. -/
theorem Inv.victim_spec (h : r.Inv) {t : T} {r' : LruReplacer T} (hv : r.victim = some (t, r')) :
    r'.Inv ∧ r.items = r'.items ++ [t] ∧ r'.capacity = r.capacity := by
  unfold victim at hv
  cases hl : r.lruList.getLast? with
  | none => simp [hl] at hv
  | some back =>
    simp only [hl, Option.some.injEq, Prod.mk.injEq] at hv
    obtain ⟨rfl, rfl⟩ := hv
    obtain ⟨front, hfront⟩ := List.getLast?_eq_some_iff.1 hl
    exact ⟨h.dropLast_inv hl, by simp [items, hfront], rfl⟩

theorem Inv.pushFront_inv (h : r.Inv) {t : T} (ht : t ∉ r.items) : (r.pushFront t).Inv := by
  have hnone : r.dir.lookup t = none := by
    cases hd : r.dir.lookup t with
    | none => rfl
    | some node => exact absurd (mem_items.2 ⟨node, (h.dir_iff t node).1 hd⟩) ht
  refine ⟨?_, ?_, ?_⟩
  · simp only [pushFront, List.map_cons, List.nodup_cons]
    refine ⟨?_, h.nodes_nodup⟩
    rintro hf
    obtain ⟨x, hx, he⟩ := List.mem_map.1 hf
    exact (h.node_lt x hx).ne he
  · intro x hx
    rcases List.mem_cons.1 hx with rfl | hx
    · exact Nat.lt_succ_self _
    · exact (h.node_lt x hx).trans (Nat.lt_succ_self _)
  · intro u m
    simp only [pushFront, emplace, hnone, Option.isSome_none, Bool.false_eq_true, if_false,
      List.mem_cons, Prod.mk.injEq]
    by_cases hu : u = t
    · subst hu
      have hno : (m, u) ∉ r.lruList := fun hm => ht (mem_items.2 ⟨m, hm⟩)
      simp [hno, eq_comm]
    · rw [AList.lookup_insert_ne hu, h.dir_iff]
      simp [hu]

theorem Inv.makeRoom_inv (h : r.Inv) (t : T) : (r.makeRoom t).Inv := by
  unfold makeRoom
  cases ht : r.dir.lookup t with
  | some node => simpa [remove, ht] using h.remove_inv t
  | none =>
    dsimp only
    split
    · cases hl : r.lruList.getLast? with
      | none => exact h
      | some back => exact h.dropLast_inv hl
    · exact h

theorem Inv.items_makeRoom (h : r.Inv) {t : T} (hroom : t ∈ r.items ∨ r.items.length < r.capacity) :
    (r.makeRoom t).items = r.items.erase t := by
  unfold makeRoom
  cases ht : r.dir.lookup t with
  | some node => exact h.items_eraseNode ht
  | none =>
    have hn := h.not_mem_items ht
    have hlt : r.lruList.length < r.capacity := by simpa [items] using hroom.resolve_left hn
    dsimp only
    rw [if_neg (by omega), List.erase_of_not_mem hn]

/-- While the list has room, `put` moves or adds an element to the recent end. -/
theorem Inv.put_spec (h : r.Inv) {t : T} (hroom : t ∈ r.items ∨ r.items.length < r.capacity) :
    (r.put t).Inv ∧ (r.put t).items = t :: r.items.erase t := by
  have hm := h.items_makeRoom hroom
  have hn : t ∉ (r.makeRoom t).items := by
    rw [hm]
    exact h.items_nodup.not_mem_erase
  exact ⟨(h.makeRoom_inv t).pushFront_inv hn, by rw [← hm]; rfl⟩

@[simp] theorem capacity_remove (t : T) : (r.remove t).capacity = r.capacity := by
  unfold remove
  split <;> rfl

@[simp] theorem capacity_put (t : T) : (r.put t).capacity = r.capacity := by
  unfold put pushFront makeRoom
  split
  · rfl
  · split
    · split <;> rfl
    · rfl

end LruReplacer

end Tadis
