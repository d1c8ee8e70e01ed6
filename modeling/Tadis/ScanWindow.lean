import Tadis.HeapClients

/-!
# Scans during insertions

A scanner that is used while records are inserted delivers records that are there by then, each at
most once and in their order. When it answers that it is done it has delivered all the records that
were there when it was created.
-/

namespace Tadis.TableHeap

open BufferPool RecordScanner

variable {n i : ℕ} {pages pages' pages₀ : List (List Slot)} {c : Cursor} {d : List (RID × Bytes)}

def rowsUpTo (pages : List (List Slot)) (i : ℕ) : List (RID × Bytes) :=
  (List.range i).flatMap (fun j => pageRows (j + 1) 0 (pages.getD j []))

def rowsBefore (pages : List (List Slot)) (c : Cursor) : List (RID × Bytes) :=
  rowsUpTo pages c.page ++ pageRows (c.page + 1) 0 ((pages.getD c.page []).take c.slot)

theorem rowsUpTo_succ (pages : List (List Slot)) (i : ℕ) :
    rowsUpTo pages (i + 1) = rowsUpTo pages i ++ pageRows (i + 1) 0 (pages.getD i []) := by
  simp [rowsUpTo, List.range_succ]

theorem pageRows_sublist (pid j : ℕ) {l l' : List Slot} (h : l <+: l') :
    (pageRows pid j l).Sublist (pageRows pid j l') := by
  obtain ⟨t, rfl⟩ := h
  rw [pageRows_append]
  exact List.sublist_append_left _ _

theorem rowsUpTo_sublist (h : Extends pages pages') (i : ℕ) :
    (rowsUpTo pages i).Sublist (rowsUpTo pages' i) := by
  induction i with
  | zero => exact List.Sublist.refl _
  | succ i ih =>
    rw [rowsUpTo_succ, rowsUpTo_succ]
    exact ih.append (pageRows_sublist _ _ (h i))

theorem rowsUpTo_of_ge {i : ℕ} (h : pages.length ≤ i) :
    rowsUpTo pages i = rowsUpTo pages pages.length := by
  induction i, h using Nat.le_induction with
  | base => rfl
  | succ i hi ih =>
    rw [rowsUpTo_succ, ih, List.getD_eq_default _ _ hi]
    exact List.append_nil _

theorem rowsBefore_sublist (h : Extends pages pages') (c : Cursor) :
    (rowsBefore pages c).Sublist (rowsBefore pages' c) :=
  (rowsUpTo_sublist h _).append (pageRows_sublist _ _ ((h c.page).take c.slot))

theorem rowsBefore_of_ge (h : (pages.getD c.page []).length ≤ c.slot) :
    rowsBefore pages c = rowsUpTo pages (c.page + 1) := by
  rw [rowsBefore, List.take_of_length_le h, rowsUpTo_succ]

theorem rowsBefore_le (pages : List (List Slot)) (c : Cursor) :
    (rowsBefore pages c).Sublist (rowsUpTo pages (c.page + 1)) := by
  rw [rowsBefore, rowsUpTo_succ]
  exact (List.Sublist.refl _).append (pageRows_sublist _ _ (List.take_prefix _ _))

/-- `d` has been delivered since the heap had the pages `pages₀`. -/
structure Watched (pages₀ pages : List (List Slot)) (c : Cursor) (d : List (RID × Bytes)) : Prop where
  grown : Extends pages₀ pages
  length_le : pages₀.length ≤ pages.length
  slot_le : c.slot ≤ c.loaded
  loaded_le : c.loaded ≤ (pages.getD c.page []).length
  loaded_ge : (pages₀.getD c.page []).length ≤ c.loaded
  delivered_le : d.Sublist (rowsBefore pages c)
  le_delivered : (rowsBefore pages₀ c).Sublist d

theorem length_le_insertPages (pages : List (List Slot)) (bytes : Bytes) :
    pages.length ≤ (insertPages pages bytes).2.length := by
  unfold insertPages
  cases hl : pages.getLast? with
  | none => simp [List.getLast?_eq_none_iff.1 hl]
  | some last =>
    dsimp only
    unfold placeLast
    split
    · simp
    · simp [length_placeNew]

theorem Watched.insert (h : Watched pages₀ pages c d) (bytes : Bytes) :
    Watched pages₀ (insertPages pages bytes).2 c d where
  grown := h.grown.trans (extends_insertPages _ _)
  length_le := h.length_le.trans (length_le_insertPages _ _)
  slot_le := h.slot_le
  loaded_le := h.loaded_le.trans (extends_insertPages pages bytes c.page).length_le
  loaded_ge := h.loaded_ge
  delivered_le := h.delivered_le.trans (rowsBefore_sublist (extends_insertPages _ _) c)
  le_delivered := h.le_delivered

theorem rowsBefore_step {s : Slot} (hs : (pages.getD c.page [])[c.slot]? = some s)
    (hlive : s.live = true) :
    rowsBefore pages { c with slot := c.slot + 1 } =
      rowsBefore pages c ++ [(⟨c.page + 1, c.slot⟩, s.bytes)] := by
  have hlt : c.slot < (pages.getD c.page []).length := (List.getElem?_eq_some_iff.1 hs).1
  rw [rowsBefore, rowsBefore, List.take_add_one, hs, pageRows_append, List.length_take,
    min_eq_left hlt.le, List.append_assoc]
  simp [pageRows, hlive]

theorem Watched.step (h : Watched pages₀ pages c d) (hf : Filled pages) (hlt : c.slot < c.loaded) :
    ∃ r, c.next pages = (.ok r, { c with slot := c.slot + 1 }) ∧
      Watched pages₀ pages { c with slot := c.slot + 1 } (d ++ [r]) := by
  have hpage : c.slot < (pages.getD c.page []).length := hlt.trans_le h.loaded_le
  have hs := List.getElem?_eq_getElem hpage
  generalize (pages.getD c.page [])[c.slot] = s at hs
  have hlive : s.live = true := by
    have hi : c.page < pages.length := by
      by_contra hge
      rw [List.getD_eq_default _ _ (not_lt.1 hge)] at hpage
      simp at hpage
    rw [List.getD_eq_getElem _ _ hi] at hs
    exact hf.live _ (List.getElem_mem hi) s (List.mem_of_getElem? hs)
  refine ⟨(⟨c.page + 1, c.slot⟩, s.bytes), ?_, h.grown, h.length_le, hlt, h.loaded_le, h.loaded_ge,
    ?_, ?_⟩
  · have hdrop : (c.slots pages).drop c.slot = s :: (c.slots pages).drop (c.slot + 1) := by
      have hs' : (c.slots pages)[c.slot]? = some s := by
        rw [Cursor.slots, List.getElem?_take_of_lt hlt, hs]
      obtain ⟨hlen, rfl⟩ := List.getElem?_eq_some_iff.1 hs'
      exact List.drop_eq_getElem_cons hlen
    rw [Cursor.next_of_lt hlt, Cursor.nextInPage, hdrop, Cursor.walk, if_pos hlive]
  · rw [rowsBefore_step hs hlive]
    exact h.delivered_le.append (List.Sublist.refl _)
  · rcases lt_or_ge c.slot (pages₀.getD c.page []).length with hold | hnew
    · have hs₀ : (pages₀.getD c.page [])[c.slot]? = some s := by
        rw [← hs]
        obtain ⟨l, hl⟩ := h.grown c.page
        rw [← hl, List.getElem?_append_left hold]
      rw [rowsBefore_step hs₀ hlive]
      exact h.le_delivered.append (List.Sublist.refl _)
    · have hsame : rowsBefore pages₀ { c with slot := c.slot + 1 } = rowsBefore pages₀ c :=
        (rowsBefore_of_ge (c := { c with slot := c.slot + 1 }) (hnew.trans (Nat.le_succ _))).trans
          (rowsBefore_of_ge hnew).symm
      rw [hsame]
      exact h.le_delivered.trans (List.sublist_append_left _ _)

theorem Watched.page_done (h : Watched pages₀ pages c d) (hge : c.loaded ≤ c.slot) :
    (rowsUpTo pages₀ (c.page + 1)).Sublist d := by
  rw [← rowsBefore_of_ge (h.loaded_ge.trans hge)]
  exact h.le_delivered

theorem Watched.move (h : Watched pages₀ pages c d) (hge : c.loaded ≤ c.slot) :
    Watched pages₀ pages (Cursor.front pages (c.page + 1)) d where
  grown := h.grown
  length_le := h.length_le
  slot_le := Nat.zero_le _
  loaded_le := le_rfl
  loaded_ge := (h.grown _).length_le
  delivered_le := by
    refine (h.delivered_le.trans (rowsBefore_le pages c)).trans ?_
    exact List.sublist_append_left _ _
  le_delivered := by
    have hfront : rowsBefore pages₀ (Cursor.front pages (c.page + 1)) = rowsUpTo pages₀ (c.page + 1) :=
      List.append_nil _
    rw [hfront]
    exact h.page_done hge

/-- What is delivered next is there by now, and at the end everything old has been delivered. -/
theorem Watched.next (h : Watched pages₀ pages c d) (hf : Filled pages) :
    (∃ r, (c.next pages).1 = .ok r ∧ Watched pages₀ pages (c.next pages).2 (d ++ [r])) ∨
    ((c.next pages).1 = .error .outOfRange ∧ Watched pages₀ pages (c.next pages).2 d ∧
      (rowsUpTo pages₀ pages₀.length).Sublist d) := by
  by_cases hlt : c.slot < c.loaded
  · obtain ⟨r, hn, hw⟩ := h.step hf hlt
    exact .inl ⟨r, by rw [hn], by rw [hn]; exact hw⟩
  · have hge := not_lt.1 hlt
    obtain ⟨page, slot, loaded⟩ := c
    obtain rfl : slot = loaded := le_antisymm h.slot_le hge
    by_cases hnext : page + 1 < pages.length
    · have hu := List.getElem?_eq_getElem hnext
      have hne : pages[page + 1] ≠ [] := hf.ne_nil _ (List.getElem_mem hnext)
      have hm := h.move hge
      dsimp only at hm
      rw [Cursor.front_eq hu] at hm
      obtain ⟨r, hn, hw⟩ := hm.step hf (List.length_pos_iff.2 hne)
      have hmove := Cursor.next_move hu slot
      rw [if_neg hne, hn] at hmove
      exact .inl ⟨r, by rw [hmove], by rw [hmove]; exact hw⟩
    · have hstop : Cursor.next pages ⟨page, slot, slot⟩ = (.error .outOfRange, ⟨page, slot, slot⟩) := by
        have hh : Cursor.hasNext pages ⟨page, slot, slot⟩ = (false, ⟨page, slot, slot⟩) := by
          unfold Cursor.hasNext
          rw [if_neg (lt_irrefl _), if_neg hnext]
        rw [Cursor.next, hh]
        rfl
      have hdone := h.page_done hge
      dsimp only at hdone
      rw [rowsUpTo_of_ge (h.length_le.trans (not_lt.1 hnext))] at hdone
      exact .inr ⟨by rw [hstop], by rw [hstop]; exact h, hdone⟩

variable {p : Pages} {calls : List Call}

end Tadis.TableHeap
