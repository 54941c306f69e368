import Pager.Proofs.Slots
import Mathlib.Order.Bounds.Defs

namespace Pager.Swap.Bitmap

variable {b : Bitmap} {i j k : Nat} {S : Finset Nat}

theorem test_of_getLsbD (hj : j < b.slots)
    (h : (b.words.getD (j / 64) 0#64).getLsbD (j % 64) = true) : b.test j = true := by
  rw [test, decide_eq_true hj, h]
  rfl

theorem test_of_allOnes (hj : j < b.slots)
    (h : b.words.getD (j / 64) 0#64 = BitVec.allOnes 64) : b.test j = true := by
  apply test_of_getLsbD hj
  rw [h, BitVec.getLsbD_allOnes]
  exact decide_eq_true (Nat.mod_lt _ (by decide))

theorem test_of_lt_firstClear (hk : b.words.findIdx? (fun w => w != BitVec.allOnes 64) = some k)
    (hlt : j < k * 64 + lowestClear (b.words.getD k 0#64)) (hj : j < b.slots) :
    b.test j = true := by
  obtain ⟨hks, hw, hfull⟩ := Array.findIdx?_eq_some_iff_getElem.mp hk
  have hne : b.words.getD k 0#64 ≠ BitVec.allOnes 64 := by
    simpa [Array.getD, hks] using hw
  obtain ⟨hclear, -, hset⟩ := lowestClear_spec hne
  rcases Nat.lt_or_ge (j / 64) k with hword | hword
  · have hones := hfull (j / 64) hword
    have hjs : j / 64 < b.words.size := hword.trans hks
    exact test_of_allOnes hj (by simpa [Array.getD, hjs] using hones)
  · obtain rfl : j / 64 = k := by omega
    exact test_of_getLsbD hj (hset (j % 64) (by omega))

theorem test_of_full (hb : b.WellFormed)
    (hn : b.words.findIdx? (fun w => w != BitVec.allOnes 64) = none) (hj : j < b.slots) :
    b.test j = true := by
  have hjs : j / 64 < b.words.size := by
    rw [WellFormed] at hb
    omega
  have hones := Array.findIdx?_eq_none_iff.mp hn b.words[j / 64] (Array.getElem_mem hjs)
  exact test_of_allOnes hj (by simpa [Array.getD, hjs] using hones)

theorem test_of_lt_firstFree? (h : b.firstFree? = some i) (hlt : j < i) : b.test j = true := by
  obtain ⟨k, hk, rfl, hi⟩ := exists_of_firstFree? h
  exact test_of_lt_firstClear hk hlt (hlt.trans hi)

theorem test_of_firstFree?_none (hb : b.WellFormed) (h : b.firstFree? = none) (hj : j < b.slots) :
    b.test j = true := by
  unfold firstFree? at h
  split at h
  next hn => exact test_of_full hb hn hj
  next k hk =>
    dsimp only at h
    split at h
    next => cases h
    next hge => exact test_of_lt_firstClear hk (hj.trans_le (Nat.le_of_not_lt hge)) hj

def Trim (b : Bitmap) : Prop :=
  ∀ k j, j < 64 → b.slots ≤ k * 64 + j → (b.words.getD k 0#64).getLsbD j = false

theorem trim_empty (slots : Nat) : (empty slots).Trim := by
  intro k j _ _
  simp only [empty, Array.getD_eq_getD_getElem?, Array.getElem?_replicate]
  split <;> simp

theorem Trim.mark (h : b.Trim) (hi : i < b.slots) : (b.mark i).Trim := by
  intro k j hj hs
  have hbit := h k j hj hs
  simp only [Bitmap.mark, getD_modify]
  split
  next hk =>
    have hne : i % 64 ≠ j := by
      have : (b.mark i).slots = b.slots := rfl
      omega
    rw [BitVec.getLsbD_or, hbit, BitVec.getLsbD_twoPow]
    simp [hne]
  next => exact hbit

theorem Trim.unmark (h : b.Trim) (i : Nat) : (b.unmark i).Trim := by
  intro k j hj hs
  have hbit := h k j hj hs
  simp only [Bitmap.unmark, getD_modify]
  split
  · rw [BitVec.getLsbD_and, hbit, Bool.false_and]
  · exact hbit

structure Represents (b : Bitmap) (S : Finset Nat) : Prop where
  exact : b.Exact
  trim : b.Trim
  taken : b.taken = S

theorem represents_empty (slots : Nat) : (empty slots).Represents ∅ where
  exact := exact_empty slots
  trim := trim_empty slots
  taken := taken_empty slots

namespace Represents

theorem test_iff (h : b.Represents S) : b.test i = true ↔ i ∈ S := by
  rw [← h.taken, mem_taken]

theorem test_eq_false (h : b.Represents S) (hi : i ∉ S) : b.test i = false :=
  Bool.eq_false_iff.mpr (h.test_iff.not.mpr hi)

theorem lt (h : b.Represents S) (hi : i ∈ S) : i < b.slots := lt_of_test (h.test_iff.mpr hi)

theorem used_eq (h : b.Represents S) : b.used = S.card := by
  rw [h.exact.used_eq, h.taken]

theorem used_pos (h : b.Represents S) (hi : i ∈ S) : 0 < b.used :=
  h.exact.used_pos (h.test_iff.mpr hi)

theorem mark (h : b.Represents S) (hi : i < b.slots) (hn : i ∉ S) :
    (b.mark i).Represents (insert i S) where
  exact := h.exact.mark hi (h.test_eq_false hn)
  trim := h.trim.mark hi
  taken := by rw [taken_mark h.exact.wellFormed hi, h.taken]

theorem unmark (h : b.Represents S) (hi : i ∈ S) : (b.unmark i).Represents (S.erase i) where
  exact := h.exact.unmark (h.test_iff.mpr hi)
  trim := h.trim.unmark i
  taken := by rw [taken_unmark h.exact.wellFormed, h.taken]

theorem subset (h : b.Represents S) : S ⊆ Finset.range b.slots :=
  fun _ hi => Finset.mem_range.mpr (h.lt hi)

theorem firstFree?_isLeast (h : b.Represents S) (hf : b.firstFree? = some i) :
    IsLeast {j | j < b.slots ∧ j ∉ S} i := by
  obtain ⟨hi, ht⟩ := firstFree?_free hf
  refine ⟨⟨hi, fun hmem => ?_⟩, fun j hj => Nat.le_of_not_lt fun hlt => hj.2 ?_⟩
  · rw [h.test_iff.mpr hmem] at ht
    cases ht
  · exact h.test_iff.mp (test_of_lt_firstFree? hf hlt)

theorem firstFree?_eq_none (h : b.Represents S) : b.firstFree? = none ↔ S.card = b.slots := by
  have hcard : (Finset.range b.slots).card = b.slots := Finset.card_range _
  constructor
  · intro hf
    have hall : Finset.range b.slots ⊆ S := fun j hj =>
      h.test_iff.mp (test_of_firstFree?_none h.exact.wellFormed hf (Finset.mem_range.mp hj))
    rw [h.subset.antisymm hall, hcard]
  · intro hfull
    have hall : S = Finset.range b.slots :=
      Finset.eq_of_subset_of_card_le h.subset (by rw [hcard, hfull])
    by_contra hne
    obtain ⟨i, hi⟩ := Option.ne_none_iff_exists'.mp hne
    obtain ⟨⟨hlt, hn⟩, -⟩ := h.firstFree?_isLeast hi
    exact hn (hall ▸ Finset.mem_range.mpr hlt)

end Represents

end Pager.Swap.Bitmap
