import Tadis.RecordPage

/-!
# The slotted page as a list of slots

Every run of `insert`, `remove` and rebuilding over one page is a run of a list of slots with the
same answers. An accepted record is appended as a live slot and gets the old number of slots as its
id; a removal clears one live flag.
-/

namespace Tadis

inductive SlotEvent
  | insert (bytes : Bytes) (rid : Option RID)
  | remove (slotId : ℕ) (ok : Bool)
  | reinit

inductive SlotStep (pid : ℕ) : List Slot → SlotEvent → List Slot → Prop
  | insert (slots : List Slot) (bytes : Bytes) :
      SlotStep pid slots (.insert bytes (some ⟨pid, slots.length⟩)) (slots ++ [⟨bytes, true⟩])
  | refuse (slots : List Slot) (bytes : Bytes) : SlotStep pid slots (.insert bytes none) slots
  | remove {slots : List Slot} {i : ℕ} (h : i < slots.length) :
      SlotStep pid slots (.remove i true) (slots.modify i Slot.kill)
  | removeMissing {slots : List Slot} {i : ℕ} (h : slots.length ≤ i) :
      SlotStep pid slots (.remove i false) slots
  | reinit (slots : List Slot) : SlotStep pid slots .reinit slots

/-- The same calls on the page. An offered record is shorter than `free_addr_end_`. -/
inductive PageStep : RecordPage × Page → SlotEvent → RecordPage × Page → Prop
  | insert {rp rp' : RecordPage} {p p' : Page} {rec : Record} {r : Option RID}
      (hlen : rec.data.length < rp.freeAddrEnd) (h : rp.insert p rec = some (r, rp', p')) :
      PageStep (rp, p) (.insert rec.data r) (rp', p')
  | remove {rp : RecordPage} {p p' : Page} {rid : RID} {ok : Bool}
      (h : rp.remove p rid = some (ok, p')) : PageStep (rp, p) (.remove rid.slotId ok) (rp, p')
  | reinit {rp rp' : RecordPage} {p p' : Page} (h : RecordPage.init p = some (rp', p')) :
      PageStep (rp, p) .reinit (rp', p')

/-- The page answers as the list of slots does and makes no access outside its buffer. -/
structure AnswersAs (rp : RecordPage) (p : Page) (slots : List Slot) : Prop where
  contain : ∀ rid, rp.contain p rid = some (RecordPage.containOf slots[rid.slotId]?)
  get : ∀ rec rid, rp.get p rec rid = some (RecordPage.getOf rec rid slots[rid.slotId]?)
  getView : ∀ v rid, ∃ ok v', rp.getView p v rid = some (ok, v') ∧
    match slots[rid.slotId]? with
    | none => ok = false ∧ v' = v
    | some s =>
      if s.live then ok = true ∧ v'.isDeleted = false ∧ v'.rid = rid ∧ v'.data p = s.bytes
      else ok = false ∧ v' = { v with isDeleted := true }
  init : RecordPage.init p = some (rp, p)
  insert : ∀ rec, rec.data.length < rp.freeAddrEnd → rp.insert p rec ≠ none
  remove : ∀ rid, rp.remove p rid ≠ none

theorem RecordPage.Holds.answersAs {rp : RecordPage} {p : Page} {slots : List Slot}
    (h : rp.Holds p.buffer slots) : AnswersAs rp p slots where
  contain := h.contain_eq
  get := h.get_eq
  getView := h.getView_eq
  init := h.init
  insert rec hlen := by
    rw [h.insert_eq hlen]
    split <;> simp
  remove rid := by
    rw [h.remove_eq]
    split <;> simp

theorem pageStep_simulates (pid : ℕ) :
    Transition.Simulates PageStep (SlotStep pid)
      (fun c slots => c.1.Holds c.2.buffer slots ∧ c.2.pid = pid) := by
  rintro c slots e c' ⟨h, rfl⟩ hs
  cases hs with
  | @insert rp rp' p p' rec r hlen hi =>
    rw [h.insert_eq hlen] at hi
    split at hi
    · next he =>
      obtain ⟨rfl, rfl, rfl⟩ := by simpa using hi
      exact ⟨_, .insert slots rec.data, h.inserted hlen he, rfl⟩
    · obtain ⟨rfl, rfl, rfl⟩ := by simpa using hi
      exact ⟨slots, .refuse slots rec.data, h, rfl⟩
  | @remove rp p p' rid ok hr =>
    rw [h.remove_eq] at hr
    split at hr
    · next hi =>
      obtain ⟨rfl, rfl⟩ := by simpa using hr
      exact ⟨_, .remove hi, h.removed hi, rfl⟩
    · next hi =>
      obtain ⟨rfl, rfl⟩ := by simpa using hr
      exact ⟨slots, .removeMissing (not_lt.1 hi), h, rfl⟩
  | @reinit rp rp' p p' hi =>
    rw [h.init] at hi
    obtain ⟨rfl, rfl⟩ := by simpa using hi
    exact ⟨slots, .reinit slots, h, rfl⟩

/-- A record page that starts as a zeroed page is a list of slots. -/
theorem record_page_refines_slots {p : Page} (hp : p.buffer = Block.zero) :
    ∃ rp₀ p₀, RecordPage.init p = some (rp₀, p₀) ∧
      ∀ es rp' p', Transition.Run PageStep (rp₀, p₀) es (rp', p') →
        ∃ slots, Transition.Run (SlotStep p.pid) [] es slots ∧ AnswersAs rp' p' slots := by
  obtain ⟨hi, hz⟩ := RecordPage.init_zero hp
  refine ⟨_, _, hi, fun es rp' p' hrun => ?_⟩
  obtain ⟨slots, hs, hholds, _⟩ := (pageStep_simulates p.pid).run hrun ⟨hz, rfl⟩
  exact ⟨slots, hs, hholds.answersAs⟩

/-- `record_page_refines_slots` for a cleared frame. -/
theorem record_page_refines_slots_cleared :
    ({} : Page).buffer = Block.zero ∧ ∃ rp₀ p₀, RecordPage.init {} = some (rp₀, p₀) ∧
      ∀ es rp' p', Transition.Run PageStep (rp₀, p₀) es (rp', p') →
        ∃ slots, Transition.Run (SlotStep invalidId) [] es slots ∧ AnswersAs rp' p' slots :=
  ⟨rfl, record_page_refines_slots rfl⟩

end Tadis
