import Pager.Swap
import Mathlib.Data.Finset.Card
import Mathlib.Data.Finset.Range

namespace Pager.Swap.Bitmap

variable {b : Bitmap} {i : Nat}

def taken (b : Bitmap) : Finset Nat := (Finset.range b.slots).filter (fun i => b.test i = true)

theorem mem_taken : i ∈ b.taken ↔ b.test i = true := by
  rw [taken, Finset.mem_filter, Finset.mem_range, and_iff_right_iff_imp]
  exact lt_of_test

/-- The words cover the slots, and the counter counts the bits that are set. -/
structure Exact (b : Bitmap) : Prop where
  wellFormed : b.WellFormed
  used_eq : b.used = b.taken.card

theorem Exact.used_pos (h : b.Exact) (ht : b.test i = true) : 0 < b.used := by
  rw [h.used_eq]
  exact Finset.card_pos.mpr ⟨i, mem_taken.mpr ht⟩

theorem taken_empty (slots : Nat) : (empty slots).taken = ∅ := by
  ext i
  simp [mem_taken, test_empty]

theorem exact_empty (slots : Nat) : (empty slots).Exact := by
  refine ⟨wellFormed_empty slots, ?_⟩
  rw [taken_empty]
  rfl

theorem exists_of_firstFree? (h : b.firstFree? = some i) :
    ∃ k, b.words.findIdx? (fun w => w != BitVec.allOnes 64) = some k ∧
      k * 64 + lowestClear (b.words.getD k 0#64) = i ∧ i < b.slots := by
  unfold firstFree? at h
  split at h
  next => cases h
  next k hk =>
    dsimp only at h
    split at h
    next hi =>
      obtain rfl := Option.some.inj h
      exact ⟨k, hk, rfl, hi⟩
    next => cases h

theorem firstFree?_free (h : b.firstFree? = some i) : i < b.slots ∧ b.test i = false := by
  obtain ⟨k, hk, rfl, hi⟩ := exists_of_firstFree? h
  obtain ⟨hks, hw, -⟩ := Array.findIdx?_eq_some_iff_getElem.mp hk
  have hne : b.words.getD k 0#64 ≠ BitVec.allOnes 64 := by
    simpa [Array.getD, hks] using hw
  obtain ⟨hlt, hclear, -⟩ := lowestClear_spec hne
  refine ⟨hi, ?_⟩
  rw [test, show (k * 64 + lowestClear (b.words.getD k 0#64)) / 64 = k by omega,
    show (k * 64 + lowestClear (b.words.getD k 0#64)) % 64 =
      lowestClear (b.words.getD k 0#64) by omega, hclear, Bool.and_false]

theorem unmark_mark (hi : i < b.slots) (ht : b.test i = false) : (b.mark i).unmark i = b := by
  obtain ⟨words, slots, used⟩ := b
  simp only [mark, unmark, mk.injEq, Nat.add_sub_cancel, and_true]
  apply Array.ext (by simp)
  intro j hj _
  simp only [Array.size_modify] at hj
  simp only [Array.getElem_modify]
  by_cases hji : i / 64 = j
  · subst hji
    have hc : words[i / 64].getLsbD (i % 64) = false := by
      simpa [test, show i < slots from hi, Array.getD, hj] using ht
    simp only [if_true]
    apply BitVec.eq_of_getLsbD_eq
    intro k hk
    simp only [BitVec.getLsbD_and, BitVec.getLsbD_or, BitVec.getLsbD_not, BitVec.getLsbD_twoPow, hk]
    by_cases hki : i % 64 = k
    · subst hki
      rw [hc]
      simp
    · simp [hki]
  · simp only [if_neg hji]

theorem taken_mark (hb : b.WellFormed) (hi : i < b.slots) :
    (b.mark i).taken = insert i b.taken := by
  ext j
  rw [Finset.mem_insert, mem_taken, mem_taken, test_mark hb hi, Bool.or_eq_true,
    decide_eq_true_iff, eq_comm]

theorem taken_unmark (hb : b.WellFormed) (i : Nat) : (b.unmark i).taken = b.taken.erase i := by
  ext j
  rw [Finset.mem_erase, mem_taken, mem_taken, test_unmark hb, Bool.and_eq_true,
    Bool.not_eq_true', decide_eq_false_iff_not, ne_eq, eq_comm]

theorem Exact.mark (h : b.Exact) (hi : i < b.slots) (ht : b.test i = false) : (b.mark i).Exact := by
  refine ⟨h.wellFormed.mark i, ?_⟩
  have hnot : i ∉ b.taken := by simp [mem_taken, ht]
  rw [taken_mark h.wellFormed hi, Finset.card_insert_of_notMem hnot, ← h.used_eq]
  rfl

theorem Exact.unmark (h : b.Exact) (ht : b.test i = true) : (b.unmark i).Exact := by
  refine ⟨h.wellFormed.unmark i, ?_⟩
  rw [taken_unmark h.wellFormed, Finset.card_erase_of_mem (mem_taken.mpr ht), ← h.used_eq]
  rfl

end Pager.Swap.Bitmap
