import Tadis.SlotRefinement

/-!
# The free gap of a record page

`enough` computes the start of a record as `free_addr_end_ - size - 1` on 64 bits. A record shorter
than the free end is accepted only into the gap between the directory and the lowest record. For a
longer record the start wraps around, and the record is accepted although it has no room.
-/

namespace Tadis

namespace RecordPage

variable {rp : RecordPage} {p : Page} {b : PageBlock} {slots : List Slot} {rec : Record}

/-- The record, its mark and its directory entry fit between the directory and the lowest record. -/
def HasRoom (rp : RecordPage) (size : ℕ) : Prop :=
  8 * (3 + rp.recIdx.length) + 8 + (size + 1) ≤ rp.freeAddrEnd

/-- `insert` accepts the record only if it fits. Apart from the three header words it writes only
into the gap, and what does not fit is refused. -/
structure InsertsInGap (rp : RecordPage) (p : Page) (rec : Record) : Prop where
  lowest : rp.freeAddrEnd = rp.slotEnd rp.recIdx.length
  fits : rp.enough rec.data.length = true → rp.HasRoom rec.data.length
  writes : ∃ r rp' p', rp.insert p rec = some (r, rp', p') ∧
    (r.isSome = true ↔ rp.enough rec.data.length = true) ∧
    ∀ i, 24 ≤ i → i < 8 * (3 + rp.recIdx.length) ∨ rp.freeAddrEnd ≤ i →
      p'.buffer.byte i = p.buffer.byte i

theorem Holds.enough_iff (h : rp.Holds b slots) {size : ℕ} (hlen : size < rp.freeAddrEnd) :
    rp.enough size = true ↔ 8 * (3 + slots.length) + 8 < rp.freeAddrEnd - size - 1 := by
  rw [enough, startIdx_eq hlen h.freeAddrEnd_le, h.length_eq, decide_eq_true_iff]

theorem Holds.enough_of_le (h : rp.Holds b slots) {size : ℕ} (hle : rp.freeAddrEnd ≤ size)
    (hsize : size < 2 ^ 63) : rp.enough size = true ∧ pageSize < rp.startIdx size := by
  have hend := h.freeAddrEnd_le
  have hroom := h.room
  rw [enough, startIdx, sizeSub, sizeSub, h.length_eq, decide_eq_true_iff]
  unfold pageSize at hend ⊢
  omega

theorem byte_inserted (h : rp.Holds b slots) {data : Bytes} {start i : ℕ}
    (hstart : 8 * (3 + slots.length) + 8 ≤ start) (hend : start + (data.length + 1) ≤ rp.freeAddrEnd)
    (hi : 24 ≤ i) (hgap : i < 8 * (3 + slots.length) ∨ rp.freeAddrEnd ≤ i) :
    (rp.inserted b data start).byte i = b.byte i := by
  have hload : (rp.inserted b data start).load i 1 = b.load i 1 := by
    rw [inserted, h.length_eq, load_storeSize_disjoint _ (by omega),
      load_storeSize_disjoint _ (by omega), load_storeSize_disjoint _ (by omega),
      load_storeSize_disjoint _ (by omega),
      Block.load_store_disjoint _ (by rw [List.length_cons]; omega)]
  simpa [Block.load] using hload

theorem Holds.insertsInGap (h : rp.Holds p.buffer slots) (hlen : rec.data.length < rp.freeAddrEnd) :
    rp.InsertsInGap p rec where
  lowest := by rw [h.freeAddrEnd_eq, h.length_eq]
  fits he := by
    rw [h.enough_iff hlen] at he
    rw [HasRoom, h.length_eq]
    omega
  writes := by
    rw [h.insert_eq hlen, h.length_eq]
    by_cases he : rp.enough rec.data.length = true
    · rw [if_pos he]
      refine ⟨_, _, _, rfl, by simp [he], fun i hi hgap => ?_⟩
      have hroom := (h.enough_iff hlen).1 he
      have hstart := startIdx_eq hlen h.freeAddrEnd_le
      exact byte_inserted h (by omega) (by omega) hi hgap
    · rw [if_neg he]
      exact ⟨_, _, _, rfl, by simp [he], fun _ _ _ => rfl⟩

theorem Holds.not_insertsInGap (h : rp.Holds b slots) (hle : rp.freeAddrEnd ≤ rec.data.length)
    (hsize : rec.data.length < 2 ^ 63) : ¬ rp.InsertsInGap p rec := by
  intro hgap
  have hfits := hgap.fits (h.enough_of_le hle hsize).1
  rw [HasRoom] at hfits
  omega

end RecordPage

open RecordPage

/-- On every page that calls with records shorter than the free end lead to, the next record goes
into the gap or is refused exactly if it is shorter than the free end. -/
theorem insertsInGap_iff {p : Page} (hp : p.buffer = Block.zero) :
    ∃ rp₀ p₀, RecordPage.init p = some (rp₀, p₀) ∧
      ∀ es rp' p', Transition.Run PageStep (rp₀, p₀) es (rp', p') →
        ∀ rec : Record, rec.data.length < 2 ^ 63 →
          (rp'.InsertsInGap p' rec ↔ rec.data.length < rp'.freeAddrEnd) := by
  obtain ⟨hi, hz⟩ := init_zero hp
  refine ⟨_, _, hi, fun es rp' p' hrun rec hrec => ?_⟩
  obtain ⟨slots, _, hholds, _⟩ := (pageStep_simulates p.pid).run hrun ⟨hz, rfl⟩
  constructor
  · intro hgap
    by_contra hle
    exact hholds.not_insertsInGap (not_lt.1 hle) hrec hgap
  · exact hholds.insertsInGap

/-- `insertsInGap_iff` for the first record on a cleared frame. -/
theorem insertsInGap_first : ∃ rp p, RecordPage.init {} = some (rp, p) ∧
    (rp.InsertsInGap p { data := [7] } ↔ 1 < rp.freeAddrEnd) := by
  obtain ⟨rp, p, hi, hrun⟩ := insertsInGap_iff (p := {}) rfl
  exact ⟨rp, p, hi, hrun [] rp p (.nil _) { data := [7] } (by decide)⟩

/-- A record of 1024 bytes is accepted by an empty page of 1024 bytes. -/
theorem insertsInGap_long : ¬ ∀ rp p, RecordPage.init {} = some (rp, p) →
    ∀ rec : Record, rec.data.length < 2 ^ 63 → rp.InsertsInGap p rec := by
  intro h
  obtain ⟨hi, hz⟩ := init_zero (p := {}) rfl
  have hlen : (List.replicate 1024 (0 : UInt8)).length = 1024 := List.length_replicate
  have hgap := h _ _ hi { data := List.replicate 1024 0 } (by rw [hlen]; decide)
  exact hz.not_insertsInGap (by rw [hlen]; decide) (by rw [hlen]; decide) hgap

end Tadis
