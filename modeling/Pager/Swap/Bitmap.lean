namespace Pager.Swap

/-- Which slots are taken, one bit each in words of 64, and how many. -/
structure Bitmap where
  words : Array (BitVec 64) := #[]
  slots : Nat := 0
  used : Nat := 0
deriving Inhabited

def lowestClear (w : BitVec 64) : Nat :=
  ((List.range 64).find? (fun i => !w.getLsbD i)).getD 64

theorem lowestClear_spec {w : BitVec 64} (h : w ≠ BitVec.allOnes 64) :
    lowestClear w < 64 ∧ w.getLsbD (lowestClear w) = false ∧
      ∀ i < lowestClear w, w.getLsbD i = true := by
  unfold lowestClear
  cases hf : (List.range 64).find? (fun i => !w.getLsbD i) with
  | none =>
      refine absurd (BitVec.eq_of_getLsbD_eq fun i hi => ?_) h
      rw [List.find?_range_eq_none] at hf
      have hw : w.getLsbD i = true := by simpa using hf i hi
      rw [hw, BitVec.getLsbD_allOnes, decide_eq_true hi]
  | some i =>
      rw [List.find?_range_eq_some] at hf
      obtain ⟨hc, hi, hl⟩ := hf
      exact ⟨List.mem_range.mp hi, by simpa using hc, fun j hj => by simpa using hl j hj⟩

namespace Bitmap

def empty (slots : Nat) : Bitmap where
  words := Array.replicate ((slots + 63) / 64) 0#64
  slots := slots

def test (b : Bitmap) (i : Nat) : Bool :=
  i < b.slots && (b.words.getD (i / 64) 0#64).getLsbD (i % 64)

/-- The first slot whose bit is clear. Full words are skipped; bits past the
last slot are never taken. -/
def firstFree? (b : Bitmap) : Option Nat :=
  match b.words.findIdx? (fun w => w != BitVec.allOnes 64) with
  | none => none
  | some k =>
      let i := k * 64 + lowestClear (b.words.getD k 0#64)
      if i < b.slots then some i else none

def mark (b : Bitmap) (i : Nat) : Bitmap where
  words := b.words.modify (i / 64) (fun w => w ||| BitVec.twoPow 64 (i % 64))
  slots := b.slots
  used := b.used + 1

def unmark (b : Bitmap) (i : Nat) : Bitmap where
  words := b.words.modify (i / 64) (fun w => w &&& ~~~BitVec.twoPow 64 (i % 64))
  slots := b.slots
  used := b.used - 1

def take? (b : Bitmap) : Option (Nat × Bitmap) := b.firstFree?.map (fun i => (i, b.mark i))

def WellFormed (b : Bitmap) : Prop := b.words.size = (b.slots + 63) / 64

theorem wellFormed_empty (slots : Nat) : (empty slots).WellFormed := by
  simp [WellFormed, empty]

theorem WellFormed.mark {b : Bitmap} (h : b.WellFormed) (i : Nat) : (b.mark i).WellFormed := by
  simpa [WellFormed, Bitmap.mark] using h

theorem WellFormed.unmark {b : Bitmap} (h : b.WellFormed) (i : Nat) :
    (b.unmark i).WellFormed := by
  simpa [WellFormed, Bitmap.unmark] using h

theorem test_empty (slots i : Nat) : (empty slots).test i = false := by
  simp only [test, empty, Array.getD_eq_getD_getElem?, Array.getElem?_replicate]
  split <;> simp

theorem lt_of_test {b : Bitmap} {i : Nat} (h : b.test i = true) : i < b.slots := by
  simp only [test, Bool.and_eq_true, decide_eq_true_eq] at h
  exact h.1

theorem getD_modify (ws : Array (BitVec 64)) (k j : Nat) (f : BitVec 64 → BitVec 64) :
    (ws.modify k f).getD j 0#64 =
      if k = j ∧ j < ws.size then f (ws.getD j 0#64) else ws.getD j 0#64 := by
  simp only [Array.getD_eq_getD_getElem?, Array.getElem?_modify]
  by_cases h : k = j
  · by_cases hj : j < ws.size <;> simp [h, hj]
  · simp [h]

theorem test_mark {b : Bitmap} (hb : b.WellFormed) {i : Nat} (hi : i < b.slots) (j : Nat) :
    (b.mark i).test j = (decide (i = j) || b.test j) := by
  unfold WellFormed at hb
  have hm : j % 64 < 64 := Nat.mod_lt _ (by decide)
  simp only [test, mark, getD_modify]
  by_cases hj : j < b.slots
  · by_cases hk : i / 64 = j / 64
    · rw [if_pos ⟨hk, by omega⟩]
      simp only [hj, decide_true, Bool.true_and, BitVec.getLsbD_or, BitVec.getLsbD_twoPow]
      by_cases h : i = j
      · simp [h, hm]
      · have : i % 64 ≠ j % 64 := by omega
        simp [h, this]
    · rw [if_neg (fun h => hk h.1)]
      have : i ≠ j := fun h => hk (h ▸ rfl)
      simp [hj, this]
  · have : i ≠ j := by omega
    simp [hj, this]

theorem test_unmark {b : Bitmap} (hb : b.WellFormed) (i j : Nat) :
    (b.unmark i).test j = (!decide (i = j) && b.test j) := by
  unfold WellFormed at hb
  have hm : j % 64 < 64 := Nat.mod_lt _ (by decide)
  simp only [test, unmark, getD_modify]
  by_cases hj : j < b.slots
  · by_cases hk : i / 64 = j / 64
    · rw [if_pos ⟨hk, by omega⟩]
      simp only [hj, decide_true, Bool.true_and, BitVec.getLsbD_and, BitVec.getLsbD_not,
        BitVec.getLsbD_twoPow, hm]
      by_cases h : i = j
      · simp [h, hm]
      · have : i % 64 ≠ j % 64 := by omega
        simp [h, this]
    · rw [if_neg (fun h => hk h.1)]
      have : i ≠ j := fun h => hk (h ▸ rfl)
      simp [hj, this]
  · simp [hj]

end Bitmap

end Pager.Swap
