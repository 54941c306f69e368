import Pager.Proofs.Ends
import Pager.Segment

namespace Pager

open Step

namespace Bytes

theorem ext_getElem? {n : Nat} {v w : Vector UInt8 n} (h : ∀ i < n, v[i]? = w[i]?) : v = w := by
  apply Vector.ext
  intro i hi
  have := h i hi
  simpa only [Vector.getElem?_eq_getElem hi, Option.some.injEq] using this

theorem getElem?_zero {n i : Nat} (h : i < n) : (zero n)[i]? = some 0 := by
  rw [Vector.getElem?_eq_getElem (by simpa using h)]
  simp [zero]

theorem clearFrom_splice {n : Nat} (v : Vector UInt8 n) {bs : List UInt8} {len : Nat}
    (h : bs.length = len) : clearFrom (splice v 0 bs) len = ofList n bs := by
  apply ext_getElem?
  intro i hi
  rw [clearFrom, ofList, getElem?_splice, getElem?_splice, getElem?_splice, getElem?_zero hi,
    List.length_replicate, h]
  by_cases hl : i < len
  · rw [if_neg (by omega), if_pos (by omega), if_pos (by omega)]
  · rw [if_pos (by omega), if_neg (by omega), List.getElem?_replicate, if_pos (by omega)]

end Bytes

namespace Segment

variable {g : Segment} {f : File} {b : PageBytes}

def window (g : Segment) (d : Array UInt8) : List UInt8 :=
  Bytes.slice d.toVector g.offset g.length

def image (g : Segment) (d : Array UInt8) : PageBytes := Bytes.ofList pageSize (g.window d)

def Fits (g : Segment) (size : Nat) : Prop := min (g.offset + g.length) size - g.offset = g.length

/-- A file after the first `k` bytes of a page were written to it. -/
def spill (g : Segment) (b : PageBytes) (k : Nat) (d : Array UInt8) : Array UInt8 :=
  (Bytes.splice d.toVector g.offset ((Bytes.slice b 0 g.length).take k)).toArray

theorem length_window (d : Array UInt8) :
    (g.window d).length = min (g.offset + g.length) d.size - g.offset :=
  Bytes.length_slice _ _ _

theorem length_slice_page : (Bytes.slice b 0 g.length).length = g.length := by
  have := g.length_le
  rw [Bytes.length_slice]
  omega

@[simp]
theorem size_spill (k : Nat) (d : Array UInt8) : (g.spill b k d).size = d.size :=
  Vector.size_toArray _

theorem getElem?_spill (k : Nat) (d : Array UInt8) (j : Nat) :
    (g.spill b k d)[j]? =
      if g.offset ≤ j ∧ j < g.offset + min k g.length ∧ j < d.size then b[j - g.offset]?
      else d[j]? := by
  have hv : ∀ v : Vector UInt8 d.size, v.toArray[j]? = v[j]? := fun v => Vector.getElem?_toArray
  rw [spill, hv, Bytes.getElem?_splice, List.length_take, length_slice_page]
  by_cases h : g.offset ≤ j ∧ j < g.offset + min k g.length ∧ j < d.size
  · rw [if_pos h, if_pos h, List.getElem?_take, if_pos (by omega), Bytes.getElem?_slice,
      if_pos (by omega), Nat.zero_add]
  · rw [if_neg h, if_neg h]
    exact (hv _).symm

theorem spill_zero (d : Array UInt8) : g.spill b 0 d = d := rfl

theorem getElem?_image {d : Array UInt8} (h : g.Fits d.size) {i : Nat} (hi : i < g.length) :
    (g.image d)[i]? = d[g.offset + i]? := by
  have := g.length_le
  rw [Segment.image, Bytes.ofList, Bytes.getElem?_splice, length_window, h, if_pos (by omega),
    window, Bytes.getElem?_slice, if_pos (by omega), Nat.sub_zero]
  exact Vector.getElem?_toArray.symm

theorem getElem?_image_behind (d : Array UInt8) {i : Nat} (hi : g.length ≤ i) (hp : i < pageSize) :
    (g.image d)[i]? = some 0 := by
  have hw : (g.window d).length ≤ g.length := by
    rw [length_window]
    omega
  rw [Segment.image, Bytes.ofList, Bytes.getElem?_splice, if_neg (by omega), Bytes.getElem?_zero hp]

/-- A segment is loaded in full or not at all, whatever reads come back short. -/
theorem load_ends :
    Ends g.load (f, b)
      (fun _ t => t.1.data = f.data ∧ g.Fits f.data.size ∧ t.2 = g.image f.data)
      (fun _ t => t.1.data = f.data) := by
  have hread : Ends (File.readAt g.offset g.length) f
      (fun bs f' => f'.data = f.data ∧ (bs.length = g.length → bs = g.window f.data))
      (fun _ f' => f'.data = f.data) := by
    simp only [Ends, File.readAt]
    rcases f.readTrap.ask with ⟨_ | _, t⟩
    · rcases f.shortReadTrap.ask with ⟨_ | _, u⟩
      · exact ⟨rfl, fun _ => rfl⟩
      · refine ⟨rfl, fun h => ?_⟩
        have hz : g.length = 0 := by
          rw [File.bytesAt, Bytes.length_slice] at h
          omega
        simp only [File.bytesAt, window, hz]
    · rfl
  simp only [load, ends_bind, ends_zoom, ends_modify]
  refine hread.mono ?_ (fun _ _ h => h)
  intro bs f' h
  obtain ⟨hd, hw⟩ := h
  by_cases hl : bs.length = g.length
  · rw [if_pos hl, ends_modify]
    refine ⟨hd, ?_, ?_⟩
    · rw [Fits, ← length_window, ← hw hl, hl]
    · rw [Bytes.clearFrom_splice b hl, hw hl]
      rfl
  · rw [if_neg hl]
    exact hd

theorem store_ends (k : Nat) :
    Ends (File.store g.offset ((Bytes.slice b 0 g.length).take k)) f
      (fun n f' => n = min (min k g.length) (f.data.size - g.offset) ∧
        f'.data = g.spill b k f.data)
      (fun _ f' => f'.data = f.data) := by
  simp only [Ends, File.store]
  cases f.failingWrites with
  | succ n => rfl
  | zero =>
      refine ⟨?_, rfl⟩
      rw [List.length_take, length_slice_page]
      rfl

/-- A write that fails may have reached a part of the segment. -/
theorem writeBack_ends :
    Ends (g.writeBack b) f (fun _ f' => f'.data = g.spill b g.length f.data)
      (fun _ f' => ∃ k, f'.data = g.spill b k f.data) := by
  by_cases hz : g.length = 0
  · rw [writeBack, if_pos hz, ends_pure, hz, spill_zero]
  · have htake : (Bytes.slice b 0 g.length).take g.length = Bytes.slice b 0 g.length :=
      List.take_of_length_le (Nat.le_of_eq length_slice_page)
    have hdrop : (Bytes.slice b 0 g.length).dropLast =
        (Bytes.slice b 0 g.length).take (g.length - 1) := by
      rw [List.dropLast_eq_take, length_slice_page]
    have hwrite : Ends (File.writeAt g.offset (Bytes.slice b 0 g.length)) f
        (fun n f' => ∃ k, f'.data = g.spill b k f.data ∧ (n = g.length → k = g.length))
        (fun _ f' => f'.data = f.data) := by
      simp only [Ends, File.writeAt]
      rcases f.shortWriteTrap.ask with ⟨_ | _, t⟩
      · have h := store_ends (g := g) (b := b) (f := { f with shortWriteTrap := t }) g.length
        rw [htake] at h
        exact h.mono (fun n f' h => ⟨g.length, h.2, fun _ => rfl⟩) (fun _ _ h => h)
      · have h := store_ends (g := g) (b := b) (f := { f with shortWriteTrap := t }) (g.length - 1)
        rw [← hdrop] at h
        exact h.mono (fun n f' h => ⟨g.length - 1, h.2, fun _ => by omega⟩) (fun _ _ h => h)
    rw [writeBack, if_neg hz, ends_bind]
    refine hwrite.mono ?_ (fun _ f' h => ⟨0, h⟩)
    intro n f' h
    obtain ⟨k, hk, hn⟩ := h
    by_cases hl : n = g.length
    · rw [if_pos hl, ends_pure, hk, hn hl]
    · rw [if_neg hl]
      exact ⟨k, hk⟩

end Segment

end Pager
