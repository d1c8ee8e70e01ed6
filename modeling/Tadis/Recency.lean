import Mathlib.Data.List.Induction
import Mathlib.Data.List.Infix
import Mathlib.Data.List.Nodup
import Mathlib.Tactic.Common

/-!
# Recency lists

A recency list has its elements from the most to the least recently used. It is bounded: an element
that comes new to a full list drops the last one. Along any history of operations the list has no
repetition, keeps its bound and is sorted by the time of the last use, so the last element is the least
recently used one.
-/

namespace Recency

variable {T : Type*}

inductive Op (T : Type*)
  | put (t : T)
  | touch (t : T)
  | remove (t : T)
  | victim

variable [DecidableEq T]

def Op.uses (t : T) : Op T → Bool
  | put u => u = t
  | touch u => u = t
  | remove _ => false
  | victim => false

def step (cap : ℕ) (l : List T) : Op T → List T
  | .put t => if t ∈ l then t :: l.erase t else if l.length = cap then t :: l.dropLast else t :: l
  | .touch t => if t ∈ l then t :: l.erase t else l
  | .remove t => l.erase t
  | .victim => l.dropLast

def run (cap : ℕ) (ops : List (Op T)) : List T := ops.foldl (step cap) []

/-- When the element was last used, counted from 1, in a history with the latest operation first. -/
def lastUse (t : T) : List (Op T) → ℕ
  | [] => 0
  | op :: ops => if op.uses t then ops.length + 1 else lastUse t ops

/-- The list has the elements in the order of their last use. -/
def Sorted (ops : List (Op T)) (l : List T) : Prop :=
  l.Pairwise (fun a b => lastUse b ops < lastUse a ops)

variable {cap : ℕ} {ops : List (Op T)} {op : Op T} {l l' : List T} {t u : T}

theorem Sorted.nodup (h : Sorted ops l) : l.Nodup :=
  List.Pairwise.imp (fun {a b} hlt heq => absurd hlt (by rw [heq]; exact lt_irrefl _)) h

theorem lastUse_le (t : T) (ops : List (Op T)) : lastUse t ops ≤ ops.length := by
  induction ops with
  | nil => exact le_rfl
  | cons op ops ih =>
    rw [lastUse, List.length_cons]
    split_ifs
    · exact le_rfl
    · omega

theorem lastUse_cons_of_not (h : op.uses t = false) : lastUse t (op :: ops) = lastUse t ops := by
  rw [lastUse, h]
  rfl

theorem Sorted.sublist (h : Sorted ops l) (hl : l'.Sublist l) (hop : ∀ t ∈ l', op.uses t = false) :
    Sorted (op :: ops) l' := by
  refine (List.Pairwise.sublist hl h).imp_of_mem fun ha hb hlt => ?_
  rwa [lastUse_cons_of_not (hop _ ha), lastUse_cons_of_not (hop _ hb)]

theorem Sorted.used (h : Sorted ops l) (hl : l'.Sublist l) (hop : op.uses t = true)
    (hother : ∀ u ∈ l', op.uses u = false) : Sorted (op :: ops) (t :: l') := by
  refine List.pairwise_cons.2 ⟨fun u hu => ?_, h.sublist hl hother⟩
  have hle := lastUse_le u ops
  rw [lastUse_cons_of_not (hother u hu), lastUse, if_pos hop]
  omega

theorem decide_ne_of_mem (ht : t ∉ l) : ∀ u ∈ l, decide (t = u) = false := by
  intro u hu
  refine decide_eq_false ?_
  rintro rfl
  exact ht hu

theorem Sorted.step (h : Sorted ops l) (op : Op T) : Sorted (op :: ops) (step cap l op) := by
  have herase : ∀ t, t ∉ l.erase t := fun t => h.nodup.not_mem_erase
  cases op with
  | put t =>
    rw [Recency.step]
    split_ifs with hmem hfull
    · exact h.used List.erase_sublist (decide_eq_true rfl) (decide_ne_of_mem (herase t))
    · exact h.used (List.dropLast_sublist l) (decide_eq_true rfl)
        (decide_ne_of_mem fun hm => hmem (List.mem_of_mem_dropLast hm))
    · exact h.used (List.Sublist.refl l) (decide_eq_true rfl) (decide_ne_of_mem hmem)
  | touch t =>
    rw [Recency.step]
    split_ifs with hmem
    · exact h.used List.erase_sublist (decide_eq_true rfl) (decide_ne_of_mem (herase t))
    · exact h.sublist (List.Sublist.refl l) (decide_ne_of_mem hmem)
  | remove t => exact h.sublist List.erase_sublist fun _ _ => rfl
  | victim => exact h.sublist (List.dropLast_sublist l) fun _ _ => rfl

theorem run_append (ops : List (Op T)) (op : Op T) : run cap (ops ++ [op]) = step cap (run cap ops) op := by
  rw [run, List.foldl_append]
  rfl

theorem sorted_run (cap : ℕ) (ops : List (Op T)) : Sorted ops.reverse (run cap ops) := by
  induction ops using List.reverseRecOn with
  | nil => exact .nil
  | append_singleton ops op ih =>
    rw [run_append, List.reverse_append]
    exact ih.step op

theorem length_step_le (hcap : 1 ≤ cap) (h : l.length ≤ cap) (op : Op T) :
    (step cap l op).length ≤ cap := by
  cases op with
  | put t =>
    rw [step]
    split_ifs with hmem hfull
    · have hpos := List.length_pos_of_mem hmem
      rw [List.length_cons, List.length_erase_of_mem hmem]
      omega
    · rw [List.length_cons, List.length_dropLast]
      omega
    · rw [List.length_cons]
      omega
  | touch t =>
    rw [step]
    split_ifs with hmem
    · have hpos := List.length_pos_of_mem hmem
      rw [List.length_cons, List.length_erase_of_mem hmem]
      omega
    · exact h
  | remove t => exact List.length_erase_le.trans h
  | victim => exact (List.dropLast_sublist l).length_le.trans h

theorem length_run_le (hcap : 1 ≤ cap) (ops : List (Op T)) : (run cap ops).length ≤ cap := by
  induction ops using List.reverseRecOn with
  | nil => exact Nat.zero_le _
  | append_singleton ops op ih =>
    rw [run_append]
    exact length_step_le hcap ih op

theorem lastUse_lt_of_getLast? (h : (run cap ops).getLast? = some t) (hu : u ∈ run cap ops)
    (hne : u ≠ t) : lastUse t ops.reverse < lastUse u ops.reverse := by
  obtain ⟨front, hfront⟩ := List.getLast?_eq_some_iff.1 h
  have hsorted := sorted_run cap ops
  rw [hfront] at hsorted hu
  have hmem : u ∈ front := (List.mem_append.1 hu).resolve_right fun h => hne (List.mem_singleton.1 h)
  exact (List.pairwise_append.1 hsorted).2.2 u hmem t (List.mem_singleton.2 rfl)

/-- An element that is not in the list does not come back before it is put. -/
theorem notMem_foldl_step (h : t ∉ l) (hput : ∀ op ∈ ops, op ≠ .put t) :
    t ∉ ops.foldl (step cap) l := by
  induction ops generalizing l with
  | nil => exact h
  | cons op ops ih =>
    obtain ⟨hop, hops⟩ := List.forall_mem_cons.1 hput
    refine ih ?_ hops
    have herase : ∀ u, t ∉ l.erase u := fun u hm => h (List.mem_of_mem_erase hm)
    have hdrop : t ∉ l.dropLast := fun hm => h (List.mem_of_mem_dropLast hm)
    cases op with
    | put u =>
      have hut : t ≠ u := fun he => hop (he ▸ rfl)
      rw [step]
      split_ifs
      · exact List.not_mem_cons_of_ne_of_not_mem hut (herase u)
      · exact List.not_mem_cons_of_ne_of_not_mem hut hdrop
      · exact List.not_mem_cons_of_ne_of_not_mem hut h
    | touch u =>
      rw [step]
      split_ifs with hmem
      · refine List.not_mem_cons_of_ne_of_not_mem ?_ (herase u)
        rintro rfl
        exact h hmem
      · exact h
    | remove u => exact herase u
    | victim => exact hdrop

end Recency
