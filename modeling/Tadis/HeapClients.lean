import Tadis.Cursor
import Tadis.Machine

/-!
# Many clients on one heap

Insertions, removals and the calls of any number of scanners are made in any order on one heap, in
sessions that each open its file with a pool of their own. As long as the pages fit into the pool the
answers are those of a list of pages on which the scanners are cursors, whatever pins the scanners
have left behind.
-/

namespace Tadis.TableHeap

open BufferPool RecordScanner

variable {n : ℕ}

/-- The scanners are numbered in the order of their creation, without those that are closed. -/
inductive Call
  | insert (bytes : Bytes)
  | remove (rid : RID)
  | openScan
  | next (i : ℕ)
  | closeScan (i : ℕ)

inductive Answer
  | inserted (rid : Option RID)
  | removed (ok : Bool)
  | opened
  | row (r : Except RC (RID × Bytes))
  | closed

abbrev Clients (n : ℕ) := BufferPool n × List (RecordScanner n)

def callHeap (c : Clients n) : Call → Option (Answer × Clients n)
  | .insert bytes => (insert c.1 { data := bytes }).map (fun x => (.inserted x.1, x.2, c.2))
  | .remove rid => (remove c.1 rid).map (fun x => (.removed x.1, x.2, c.2))
  | .openScan =>
    match RecordScanner.init c.1 with
    | some (some sc, s) => some (.opened, s, c.2 ++ [sc])
    | _ => none
  | .next i =>
    (c.2[i]?).bind (fun sc =>
      (seqScanNext (sc, c.1)).map (fun x => (.row x.1, x.2.2, c.2.set i x.2.1)))
  | .closeScan i => (c.2[i]?).map (fun sc => (.closed, destroy (sc, c.1), c.2.eraseIdx i))

abbrev Pages := List (List Slot) × List Cursor

def callPages (c : Pages) : Call → Answer × Pages
  | .insert bytes => (.inserted (insertPages c.1 bytes).1, (insertPages c.1 bytes).2, c.2)
  | .remove rid =>
    (.removed (decide (rid.slotId < (c.1.getD (rid.pageId - 1) []).length)),
      c.1.modify (rid.pageId - 1) (fun slots => slots.modify rid.slotId Slot.kill), c.2)
  | .openScan => (.opened, c.1, c.2 ++ [Cursor.front c.1 0])
  | .next i =>
    let x := (c.2.getD i ⟨0, 0, 0⟩).next c.1
    (.row x.1, c.1, c.2.set i x.2)
  | .closeScan i => (.closed, c.1, c.2.eraseIdx i)

/-- The record fits into a page and is shorter than `free_addr_end_` of the page that is tried first,
the pages fit into the pool, and what a call names is there. -/
def CallOk (n : ℕ) (c : Pages) : Call → Prop
  | .insert bytes =>
    bytes.length ≤ 990 ∧ bytes.length < lastFreeEnd c.1 ∧ Roomy n (insertPages c.1 bytes).2
  | .remove rid => 0 < rid.pageId ∧ rid.pageId ≤ c.1.length
  | .openScan => True
  | .next i | .closeScan i => i < c.2.length

instance (n : ℕ) (c : Pages) : (k : Call) → Decidable (CallOk n c k)
  | .insert _ => inferInstanceAs (Decidable (_ ∧ _ ∧ _))
  | .remove _ => inferInstanceAs (Decidable (_ ∧ _))
  | .openScan => isTrue trivial
  | .next _ | .closeScan _ => Nat.decLt _ _

/-- The pool holds the pages and the scanners stand at the cursors. -/
structure Serves (c : Clients n) (p : Pages) : Prop where
  heap : ResidentHeap c.1 p.1
  roomy : Roomy n p.1
  scanners : List.Forall₂ (fun sc cur => StandsAt sc c.1 p.1 cur) c.2 p.2

variable {s s' : BufferPool n} {c : Clients n} {p : Pages} {pages : List (List Slot)}

theorem Serves.moved (h : Serves c p) (hs : ResidentHeap s' pages) (hroom : Roomy n pages)
    (hkeep : c.1.Quiet s' p.1.length) (hg : Grows p.1 pages) :
    Serves (s', c.2) (pages, p.2) :=
  ⟨hs, hroom, h.scanners.imp fun _ _ hat => hat.mono hkeep hg⟩

theorem forall₂_set {α β : Type*} {R : α → β → Prop} {l : List α} {l' : List β} {a : α} {b : β}
    (h : List.Forall₂ R l l') (hab : R a b) (i : ℕ) : List.Forall₂ R (l.set i a) (l'.set i b) := by
  induction h generalizing i with
  | nil => exact .nil
  | cons hx h ih =>
    cases i with
    | zero => exact .cons hab h
    | succ i => exact .cons hx (ih i)

theorem Serves.scanner (h : Serves c p) {i : ℕ} (hi : i < p.2.length) :
    ∃ sc, c.2[i]? = some sc ∧ StandsAt sc c.1 p.1 (p.2.getD i ⟨0, 0, 0⟩) := by
  have hlt : i < c.2.length := h.scanners.length_eq ▸ hi
  refine ⟨c.2[i], List.getElem?_eq_getElem hlt, ?_⟩
  rw [List.getD_eq_getElem _ _ hi]
  exact h.scanners.get hlt hi

theorem implements_callPages :
    Machine.Implements (callHeap (n := n)) callPages (CallOk n) Serves := by
  rintro ⟨s, scs⟩ ⟨pages, cs⟩ k h hok
  cases k with
  | insert bytes =>
    obtain ⟨hlen, hend, hroom⟩ := hok
    obtain ⟨s', hi, hs', hkeep⟩ := h.heap.insert
      (show ({ data := bytes } : Record).data.length ≤ 990 from hlen) hend hroom
    exact ⟨_, by rw [callHeap, hi]; rfl, h.moved hs' hroom hkeep (extends_insertPages _ _).grows⟩
  | remove rid =>
    obtain ⟨hpos, hle⟩ := hok
    have hlt : rid.pageId - 1 < pages.length := by
      dsimp only at hle
      omega
    have hi := List.getElem?_eq_getElem hlt
    obtain ⟨s', hr, hs', hkeep⟩ := h.heap.remove h.roomy.1 hi (show rid.pageId = _ + 1 by omega)
    have hmod : pages.modify (rid.pageId - 1) (fun slots => slots.modify rid.slotId Slot.kill) =
        pages.set (rid.pageId - 1) (pages[rid.pageId - 1].modify rid.slotId Slot.kill) :=
      List.modify_eq_set_get _ hlt
    refine ⟨(s', scs), ?_, ?_⟩
    · simp only [callHeap, callPages, hr, List.getD_eq_getElem _ _ hlt]
      rfl
    · dsimp only [callPages]
      rw [hmod]
      refine h.moved hs' ?_ hkeep (grows_set hi (by rw [starts_kill]))
      unfold Roomy
      rw [List.length_set]
      exact h.roomy
  | openScan =>
    obtain ⟨sc, s', hi, hs', hat, hkeep⟩ := exists_standsAt h.heap h.roomy.1
    have hm := h.moved hs' h.roomy hkeep (grows_refl _)
    refine ⟨(s', scs ++ [sc]), by rw [callHeap, hi]; rfl, hs', h.roomy, ?_⟩
    exact List.rel_append hm.scanners (.cons hat .nil)
  | next i =>
    obtain ⟨sc, hi, hat⟩ := h.scanner hok
    obtain ⟨sc', s', hn, hs', hat', hkeep⟩ := hat.seqScanNext h.heap h.roomy.1
    have hm := h.moved hs' h.roomy hkeep (grows_refl _)
    refine ⟨(s', scs.set i sc'), ?_, hs', h.roomy, forall₂_set hm.scanners hat' i⟩
    dsimp only at hi
    rw [callHeap]
    dsimp only
    rw [hi, Option.bind_some, hn]
    rfl
  | closeScan i =>
    obtain ⟨sc, hi, _⟩ := h.scanner hok
    obtain ⟨hs', hkeep⟩ := destroy_resident h.heap sc
    have hm := h.moved hs' h.roomy hkeep (grows_refl _)
    refine ⟨(destroy (sc, s), scs.eraseIdx i), ?_, hs', h.roomy, ?_⟩
    · dsimp only at hi
      rw [callHeap]
      dsimp only
      rw [hi]
      rfl
    · dsimp only [callPages]
      rw [List.eraseIdx_eq_take_drop_succ, List.eraseIdx_eq_take_drop_succ]
      exact List.rel_append (List.forall₂_take i hm.scanners) (List.forall₂_drop (i + 1) hm.scanners)

/-- Open the file, answer the calls, close. Scanners that are still there are forgotten. -/
structure ClientSession where
  poolSize : ℕ
  pos : 0 < poolSize
  calls : List Call

def ClientSession.run (file : File) (se : ClientSession) : Option (List Answer × File) :=
  (openFile se.poolSize file).bind (fun s =>
    (Machine.run callHeap (s, []) se.calls).bind (fun x =>
      (close x.2.1).map (fun t => (x.1, t.disk.file))))

def ClientSession.answers (pages : List (List Slot)) (se : ClientSession) :
    List Answer × List (List Slot) :=
  ((Machine.answers callPages (pages, []) se.calls).1,
    (Machine.answers callPages (pages, []) se.calls).2.1)

/-- The pages fit into the pool and the calls are allowed. -/
def SessionOk (pages : List (List Slot)) (se : ClientSession) : Prop :=
  Roomy se.poolSize pages ∧ Machine.Allowed callPages (CallOk se.poolSize) (pages, []) se.calls

instance (pages : List (List Slot)) (se : ClientSession) : Decidable (SessionOk pages se) :=
  inferInstanceAs (Decidable (_ ∧ _))

theorem implements_sessions :
    Machine.Implements ClientSession.run ClientSession.answers SessionOk SavedPages := by
  rintro file pages ⟨poolSize, hpos, calls⟩ hsaved ⟨hroom, hok⟩
  obtain ⟨m, rfl⟩ : ∃ m, poolSize = m + 1 := Nat.exists_eq_succ_of_ne_zero hpos.ne'
  obtain ⟨s, hs, hheap⟩ := hsaved m
  have hserves : Serves (s, []) (pages, []) := ⟨hheap, hroom, .nil⟩
  obtain ⟨c, hc, hres⟩ := implements_callPages.run hserves hok
  obtain ⟨t, ht, hsaved'⟩ := hres.heap.close hres.roomy
  refine ⟨t.disk.file, ?_, hsaved'.saved⟩
  rw [ClientSession.run]
  dsimp only
  rw [hs, Option.bind_some, hc, Option.bind_some]
  dsimp only
  rw [ht]
  rfl

end Tadis.TableHeap
