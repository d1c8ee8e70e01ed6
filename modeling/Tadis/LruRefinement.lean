import Tadis.LruReplacer
import Tadis.Recency
import Tadis.Transition

/-!
# The replacer against a recency list

As long as no element is touched that the replacer has, every operation does to its elements what it
does to a recency list, and the directory leads from every element to its node. Touching an element
leaves the directory with a wrong node for it: the iterator is taken before the new node is pushed.
-/

namespace Tadis.LruReplacer

open Recency (Op lastUse)

variable {T : Type} [DecidableEq T]

def step (r : LruReplacer T) : Op T → LruReplacer T
  | .put t => r.put t
  | .touch t => (r.touch t).2
  | .remove t => r.remove t
  | .victim => (r.victim.map Prod.snd).getD r

/-- The element that `victim` returns. -/
def victimOf (r : LruReplacer T) : Option T := r.victim.map Prod.fst

def run (cap : ℕ) (ops : List (Op T)) : LruReplacer T := ops.foldl step (create cap)

/-- The directory leads from every element to its own node, and has nothing else. -/
def DirExact (r : LruReplacer T) : Prop :=
  ∀ t node, r.dir.lookup t = some node ↔ (node, t) ∈ r.lruList

/-- The operation takes the element out of the replacer. -/
def TakesOut (r : LruReplacer T) (op : Op T) (t : T) : Prop :=
  op = .remove t ∨ op = .victim ∧ r.victimOf = some t

/-- The replacer is a bounded recency list throughout the run. -/
structure IsLru (cap : ℕ) (ops : List (Op T)) : Prop where
  dir : ∀ pre, pre <+: ops → (run cap pre).DirExact
  content : ∀ pre, pre <+: ops → (run cap pre).items = Recency.run cap pre
  nodup : ∀ pre, pre <+: ops → (run cap pre).items.Nodup
  bounded : ∀ pre, pre <+: ops → (run cap pre).items.length ≤ cap
  touch : ∀ pre t, pre ++ [.touch t] <+: ops →
    ((run cap pre).touch t).1 = decide (t ∈ Recency.run cap pre)
  victim : ∀ pre, pre ++ [.victim] <+: ops →
    (run cap pre).victimOf = (Recency.run cap pre).getLast?
  least : ∀ pre t, pre ++ [.victim] <+: ops → (run cap pre).victimOf = some t →
    ∀ u ∈ (run cap pre).items, u ≠ t → lastUse t pre.reverse < lastUse u pre.reverse
  gone : ∀ pre op mid t, pre ++ op :: mid ++ [.victim] <+: ops → (run cap pre).TakesOut op t →
    (∀ o ∈ mid, o ≠ .put t) → (run cap (pre ++ op :: mid)).victimOf ≠ some t

structure Sane (cap : ℕ) (r : LruReplacer T) : Prop where
  inv : r.Inv
  fresh_pos : 0 < r.freshNode
  capacity_eq : r.capacity = cap
  length_le : r.items.length ≤ cap

variable {cap : ℕ} {r : LruReplacer T} {t : T} {op : Op T} {ops : List (Op T)}

theorem sane_create (cap : ℕ) : Sane cap (create cap : LruReplacer T) :=
  ⟨inv_create cap, Nat.one_pos, rfl, Nat.zero_le _⟩

theorem Inv.lookup_eq_none (h : r.Inv) (ht : t ∉ r.items) : r.dir.lookup t = none := by
  cases hd : r.dir.lookup t with
  | none => rfl
  | some node => exact absurd (mem_items.2 ⟨node, (h.dir_iff t node).1 hd⟩) ht

theorem Inv.exists_lookup (h : r.Inv) (ht : t ∈ r.items) : ∃ node, r.dir.lookup t = some node := by
  obtain ⟨node, hn⟩ := mem_items.1 ht
  exact ⟨node, (h.dir_iff t node).2 hn⟩

theorem Inv.put_full (h : r.Inv) (ht : t ∉ r.items) (hpos : r.items ≠ [])
    (hfull : r.items.length = r.capacity) :
    (r.put t).Inv ∧ (r.put t).items = t :: r.items.dropLast := by
  have hlen : r.capacity = r.lruList.length := by rw [← hfull, items, List.length_map]
  have hne : r.lruList ≠ [] := fun hnil => hpos (by rw [items, hnil, List.map_nil])
  have hroom : r.makeRoom t = { r with
      dir := r.dir.erase (r.lruList.getLast hne).2, lruList := r.lruList.dropLast } := by
    rw [makeRoom, h.lookup_eq_none ht]
    dsimp only
    rw [if_pos hlen, List.getLast?_eq_some_getLast hne]
  have hitems : (r.makeRoom t).items = r.items.dropLast := by
    rw [hroom, items, items, List.map_dropLast]
  have hnot : t ∉ (r.makeRoom t).items := by
    rw [hitems]
    exact fun hm => ht (List.mem_of_mem_dropLast hm)
  exact ⟨(h.makeRoom_inv t).pushFront_inv hnot, congrArg (t :: ·) hitems⟩

theorem freshNode_put (r : LruReplacer T) (t : T) : (r.put t).freshNode = r.freshNode + 1 := by
  unfold put pushFront makeRoom
  split
  · rfl
  · split
    · split <;> rfl
    · rfl

theorem freshNode_remove (r : LruReplacer T) (t : T) : (r.remove t).freshNode = r.freshNode := by
  unfold remove
  split <;> rfl

theorem Sane.put (h : Sane cap r) (hcap : 1 ≤ cap) (t : T) :
    Sane cap (r.put t) ∧ (r.put t).items = Recency.step cap r.items (.put t) := by
  have hput : (r.put t).Inv ∧ (r.put t).items = Recency.step cap r.items (.put t) := by
    rw [Recency.step]
    split_ifs with hmem hfull
    · exact h.inv.put_spec (.inl hmem)
    · refine h.inv.put_full hmem ?_ (hfull.trans h.capacity_eq.symm)
      rintro hnil
      rw [hnil] at hfull
      exact absurd hfull.symm (Nat.one_le_iff_ne_zero.1 hcap)
    · have hlt : r.items.length < r.capacity := by
        rw [h.capacity_eq]
        exact lt_of_le_of_ne h.length_le hfull
      have hspec : (r.put t).Inv ∧ (r.put t).items = t :: r.items.erase t :=
        h.inv.put_spec (.inr hlt)
      rwa [List.erase_of_not_mem hmem] at hspec
  refine ⟨⟨hput.1, ?_, ?_, ?_⟩, hput.2⟩
  · rw [freshNode_put]
    exact Nat.succ_pos _
  · rw [capacity_put, h.capacity_eq]
  · rw [hput.2]
    exact Recency.length_step_le hcap h.length_le _

theorem Sane.remove (h : Sane cap r) (t : T) :
    Sane cap (r.remove t) ∧ (r.remove t).items = r.items.erase t := by
  have hitems := h.inv.items_remove t
  refine ⟨⟨h.inv.remove_inv t, ?_, ?_, ?_⟩, hitems⟩
  · rw [freshNode_remove]
    exact h.fresh_pos
  · rw [capacity_remove, h.capacity_eq]
  · rw [hitems]
    exact List.length_erase_le.trans h.length_le

theorem victimOf_eq (r : LruReplacer T) : r.victimOf = r.items.getLast? := by
  rw [victimOf, victim, items, List.getLast?_map]
  cases r.lruList.getLast? <;> rfl

theorem Sane.victim (h : Sane cap r) :
    Sane cap (r.step .victim) ∧ (r.step .victim).items = r.items.dropLast := by
  cases hv : r.victim with
  | none =>
    have hnil := victim_eq_none_iff.1 hv
    rw [step, hv, hnil]
    exact ⟨h, hnil⟩
  | some x =>
    obtain ⟨t, r'⟩ := x
    obtain ⟨hinv, hitems, hcapacity⟩ := h.inv.victim_spec hv
    have hfresh : r'.freshNode = r.freshNode := by
      unfold LruReplacer.victim at hv
      split at hv
      · cases hv
        rfl
      · cases hv
    have hdrop : r.items.dropLast = r'.items := by rw [hitems, List.dropLast_concat]
    rw [step, hv]
    refine ⟨⟨hinv, hfresh ▸ h.fresh_pos, hcapacity.trans h.capacity_eq, ?_⟩, hdrop.symm⟩
    have hle := h.length_le
    rw [hitems, List.length_append] at hle
    exact (Nat.le_add_right _ _).trans hle

theorem touch_of_not_mem (h : r.Inv) (ht : t ∉ r.items) : r.touch t = (false, r) := by
  rw [touch, h.lookup_eq_none ht]

/-- Every operation but the touch of an element of the list does what it does to a recency list. -/
theorem Sane.step (h : Sane cap r) (hcap : 1 ≤ cap) (hop : ∀ t, op = .touch t → t ∉ r.items) :
    Sane cap (r.step op) ∧ (r.step op).items = Recency.step cap r.items op := by
  cases op with
  | put t => exact h.put hcap t
  | touch t =>
    have ht := hop t rfl
    rw [LruReplacer.step, touch_of_not_mem h.inv ht, Recency.step, if_neg ht]
    exact ⟨h, rfl⟩
  | remove t => exact h.remove t
  | victim => exact h.victim

/-- The node that the directory has for an element that has been touched is not the new one. -/
theorem Sane.begin_lt (h : Sane cap r) (node : ℕ) : begin (eraseNode r.lruList node) < r.freshNode := by
  rw [begin]
  cases hl : eraseNode r.lruList node with
  | nil => exact h.fresh_pos
  | cons x l =>
    have hx : x ∈ eraseNode r.lruList node := by simp [hl]
    exact h.inv.node_lt x (List.mem_of_mem_filter hx)

theorem Sane.not_dirExact_touch (h : Sane cap r) (ht : t ∈ r.items) :
    ¬ (r.step (.touch t)).DirExact := by
  obtain ⟨node, hnode⟩ := h.inv.exists_lookup ht
  intro hdir
  have hnew := (hdir t r.freshNode).2 (by rw [LruReplacer.step, touch, hnode]; simp)
  rw [LruReplacer.step, touch, hnode] at hnew
  dsimp only at hnew
  rw [AList.lookup_insert] at hnew
  exact absurd (Option.some.inj hnew) (h.begin_lt node).ne

/-- No operation of the run touches an element of the list. -/
def NoTouch (cap : ℕ) (ops : List (Op T)) : Prop :=
  ∀ pre t, pre ++ [.touch t] <+: ops → t ∉ (run cap pre).items

theorem run_concat (pre : List (Op T)) (op : Op T) : run cap (pre ++ [op]) = (run cap pre).step op := by
  rw [run, List.foldl_append]
  rfl

theorem NoTouch.sane (h : NoTouch cap ops) (hcap : 1 ≤ cap) {pre : List (Op T)} (hpre : pre <+: ops) :
    Sane cap (run cap pre) ∧ (run cap pre).items = Recency.run cap pre := by
  induction pre using List.reverseRecOn with
  | nil => exact ⟨sane_create cap, rfl⟩
  | append_singleton pre op ih =>
    obtain ⟨hsane, hitems⟩ := ih ((List.prefix_append pre [op]).trans hpre)
    have hop : ∀ t, op = .touch t → t ∉ (run cap pre).items := by
      rintro t rfl
      exact h pre t hpre
    rw [run_concat, Recency.run_append, ← hitems]
    exact hsane.step hcap hop

/-- What an operation has taken out is not in the list before it is put again. -/
theorem notMem_of_takesOut {mid : List (Op T)} (hnodup : (Recency.run cap ops).Nodup)
    (hitems : (run cap ops).items = Recency.run cap ops) (hop : (run cap ops).TakesOut op t)
    (hput : ∀ o ∈ mid, o ≠ .put t) : t ∉ Recency.run cap (ops ++ op :: mid) := by
  rw [Recency.run, List.foldl_append, List.foldl_cons]
  refine Recency.notMem_foldl_step ?_ hput
  rw [← Recency.run]
  rcases hop with rfl | ⟨rfl, hlast⟩
  · exact hnodup.not_mem_erase
  · rw [victimOf_eq, hitems] at hlast
    obtain ⟨front, hfront⟩ := List.getLast?_eq_some_iff.1 hlast
    rw [hfront] at hnodup ⊢
    rw [Recency.step, List.dropLast_concat]
    exact fun hm => (List.nodup_append.1 hnodup).2.2 t hm t (List.mem_singleton.2 rfl) rfl

theorem NoTouch.isLru (h : NoTouch cap ops) (hcap : 1 ≤ cap) : IsLru cap ops := by
  have hpre : ∀ {pre : List (Op T)} {op : Op T}, pre ++ [op] <+: ops → pre <+: ops :=
    fun hp => (List.prefix_append _ _).trans hp
  have hnodup : ∀ pre, (Recency.run cap pre : List T).Nodup := fun pre => (Recency.sorted_run cap pre).nodup
  constructor
  · exact fun pre hp => (h.sane hcap hp).1.inv.dir_iff
  · exact fun pre hp => (h.sane hcap hp).2
  · intro pre hp
    rw [(h.sane hcap hp).2]
    exact hnodup pre
  · intro pre hp
    rw [(h.sane hcap hp).2]
    exact Recency.length_run_le hcap pre
  · intro pre t hp
    obtain ⟨hsane, hitems⟩ := h.sane hcap (hpre hp)
    have ht := h pre t hp
    rw [touch_of_not_mem hsane.inv ht, decide_eq_false (hitems ▸ ht)]
  · intro pre hp
    rw [victimOf_eq, (h.sane hcap (hpre hp)).2]
  · intro pre t hp hv u hu hne
    obtain ⟨_, hitems⟩ := h.sane hcap (hpre hp)
    rw [victimOf_eq, hitems] at hv
    rw [hitems] at hu
    exact Recency.lastUse_lt_of_getLast? hv hu hne
  · intro pre op mid t hp hop hput hv
    have hlong := hpre hp
    obtain ⟨_, hitems⟩ := h.sane hcap hlong
    obtain ⟨_, hbefore⟩ := h.sane hcap ((List.prefix_append pre (op :: mid)).trans hlong)
    rw [victimOf_eq, hitems] at hv
    exact notMem_of_takesOut (hnodup pre) hbefore hop hput (List.mem_of_getLast? hv)

/-- The replacer is a bounded recency list exactly in the runs that touch no element it has. -/
theorem isLru_iff (hcap : 1 ≤ cap) (ops : List (Op T)) : IsLru cap ops ↔ NoTouch cap ops := by
  constructor
  · intro h
    have hdir := (Transition.forall_foldl_iff (f := step) (I := Sane cap) (P := DirExact)
      (Q := fun r op => ∀ t, op = .touch t → t ∉ r.items) (fun r hr => hr.inv.dir_iff)
      (fun r op hr => ⟨⟨?_, fun hop => (hr.step hcap hop).1.inv.dir_iff⟩,
        fun hop => (hr.step hcap hop).1⟩) (sane_create cap) ops).1 h.dir
    · exact fun pre t hpre => hdir pre _ hpre t rfl
    · rintro hexact t rfl ht
      exact hr.not_dirExact_touch ht hexact
  · exact fun h => h.isLru hcap

theorem isLru_two : IsLru 2 [Op.put 1, .put 2, .put 3, .remove 2, .victim] :=
  (isLru_iff (by decide) _).2 (by
    rintro pre t ⟨rest, hrest⟩
    have hmem : Op.touch t ∈ [Op.put 1, .put 2, .put 3, .remove 2, .victim] := by
      rw [← hrest]
      simp
    simp at hmem)

/-- With 1 and 2 in the list, the touch of 1 leaves it with the node of 2, so that to remove 1 removes
2, and 1 is the next victim. -/
theorem touched_element_returned : ¬ ∀ (cap : ℕ) (ops : List (Op ℕ)), 1 ≤ cap → IsLru cap ops := by
  intro h
  have hgone := (h 2 [.put 1, .put 2, .touch 1, .remove 1, .victim] (by decide)).gone
    [.put 1, .put 2, .touch 1] (.remove 1) [] 1 ⟨[], rfl⟩ (.inl rfl) (by simp)
  exact hgone (by decide)

end Tadis.LruReplacer
