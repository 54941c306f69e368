import Pager.Proofs.FileBytes

namespace Pager

open Step

namespace Bytes

theorem slice_eq_take_drop {n : Nat} (v : Vector UInt8 n) (i len : Nat) :
    slice v i len = (v.toList.drop i).take len := by
  apply List.ext_getElem?
  intro j
  rw [getElem?_slice]
  split
  next hj => rw [List.getElem?_take_of_lt hj, List.getElem?_drop, Vector.getElem?_toList]
  next hj => rw [List.getElem?_take_eq_none (by omega)]

theorem toList_ofList {n : Nat} {bs : List UInt8} (h : bs.length ≤ n) :
    (ofList n bs).toList = bs ++ List.replicate (n - bs.length) 0 := by
  apply List.ext_getElem?
  intro j
  rw [Vector.getElem?_toList, ofList, getElem?_splice]
  by_cases hj : j < bs.length
  · rw [if_pos (by omega), List.getElem?_append_left hj, Nat.sub_zero]
  · rw [if_neg (by omega), List.getElem?_append_right (by omega), List.getElem?_replicate]
    by_cases hn : j < n
    · rw [getElem?_zero hn, if_pos (by omega)]
    · rw [Vector.getElem?_eq_none (by omega), if_neg (by omega)]

end Bytes

namespace File

/-- None of the reads and writes is made to fail or to come back short, but for those
that are pending to fail. -/
structure Reliable (f : File) : Prop where
  read : ∀ i, f.readTrap.fires i = false
  shortRead : ∀ i, f.shortReadTrap.fires i = false
  shortWrite : ∀ i, f.shortWriteTrap.fires i = false

variable {f : File} {offset len : Nat} {bs : List UInt8}

theorem readAt_ends (hf : f.Reliable) :
    Ends (readAt offset len) f
      (fun bs t => bs.length = min (offset + len) f.size - offset ∧ t.Reliable ∧
        t.failingWrites = f.failingWrites)
      (fun _ _ => False) := by
  simp only [Ends, readAt, Trap.ask, hf.read, hf.shortRead]
  exact ⟨Bytes.length_slice _ _ _, ⟨hf.read, hf.shortRead, hf.shortWrite⟩, trivial⟩

theorem writeAt_ends (hf : f.Reliable) (hn : f.failingWrites = 0) :
    Ends (writeAt offset bs) f
      (fun n t => n = min bs.length (f.size - offset) ∧ t.Reliable ∧ t.failingWrites = 0)
      (fun _ _ => False) := by
  simp only [Ends, writeAt, store, Trap.ask, hf.shortWrite, hn]
  exact ⟨rfl, ⟨hf.read, hf.shortRead, hf.shortWrite⟩, trivial⟩

end File

namespace Segment

variable {g : Segment} {f : File} {b p : PageBytes} {d : Array UInt8}

theorem fits_iff {size : Nat} : g.Fits size ↔ g.length = 0 ∨ g.offset + g.length ≤ size := by
  unfold Fits
  omega

theorem window_eq_take_drop : g.window d = (d.toList.drop g.offset).take g.length :=
  Bytes.slice_eq_take_drop _ _ _

theorem toList_image (h : g.Fits d.size) :
    (g.image d).toList = g.window d ++ List.replicate g.zeros 0 := by
  have hlen : (g.window d).length = g.length := (g.length_window d).trans h
  rw [Segment.image, Bytes.toList_ofList (by rw [hlen]; exact g.length_le), hlen]
  rfl

theorem window_spill (h : g.Fits d.size) :
    g.window (g.spill p g.length d) = p.toList.take g.length := by
  apply List.ext_getElem?
  intro j
  rw [window, Bytes.getElem?_slice]
  split
  next hj =>
    have hin := fits_iff.mp h
    rw [List.getElem?_take_of_lt hj, Vector.getElem?_toList]
    refine (getElem?_spill ..).trans ?_
    rw [if_pos (by omega), Nat.add_sub_cancel_left]
  next hj => rw [List.getElem?_take_eq_none (by omega)]

theorem spill_image (h : g.Fits d.size) : g.spill (g.image d) g.length d = d := by
  apply Array.ext_getElem?
  intro j
  rw [getElem?_spill]
  split
  next hj => rw [getElem?_image h (by omega), Nat.add_sub_cancel' hj.1]
  next => rfl

theorem load_reliable (hf : f.Reliable) :
    Ends g.load (f, b)
      (fun _ t => t.1.Reliable ∧ t.1.failingWrites = f.failingWrites ∧ t.1.data = f.data ∧
        g.Fits f.size ∧ t.2 = g.image f.data)
      (fun e t => (¬g.Fits f.size ∧ e.toErrno = .eio) ∧ t.1.data = f.data) := by
  have hcond : Ends g.load (f, b)
      (fun _ t => t.1.Reliable ∧ t.1.failingWrites = f.failingWrites)
      (fun e _ => ¬g.Fits f.size ∧ e.toErrno = .eio) := by
    simp only [load, ends_bind, ends_zoom, ends_modify]
    refine (File.readAt_ends hf).mono ?_ fun _ _ h => h.elim
    rintro bs t ⟨hlen, ht⟩
    by_cases hl : bs.length = g.length
    · rw [if_pos hl, ends_modify]
      exact ht
    · rw [if_neg hl, ends_throw, Fits, ← hlen]
      exact ⟨hl, rfl⟩
  exact (hcond.and load_ends).mono (fun _ _ h => ⟨h.1.1, h.1.2, h.2⟩) fun _ _ h => h

theorem writeBack_reliable (hf : f.Reliable) (hn : f.failingWrites = 0) :
    Ends (g.writeBack p) f
      (fun _ t => t.Reliable ∧ t.failingWrites = 0 ∧ g.Fits f.size ∧
        t.data = g.spill p g.length f.data)
      (fun e t => (¬g.Fits f.size ∧ e = .eio) ∧ ∃ k, t.data = g.spill p k f.data) := by
  have hcond : Ends (g.writeBack p) f
      (fun _ t => t.Reliable ∧ t.failingWrites = 0 ∧ g.Fits f.size)
      (fun e _ => ¬g.Fits f.size ∧ e = .eio) := by
    by_cases hz : g.length = 0
    · rw [writeBack, if_pos hz, ends_pure]
      exact ⟨hf, hn, fits_iff.mpr (.inl hz)⟩
    · rw [writeBack, if_neg hz, ends_bind]
      refine (File.writeAt_ends hf hn).mono ?_ fun _ _ h => h.elim
      rintro n t ⟨hlen, ht, htn⟩
      rw [length_slice_page] at hlen
      by_cases hl : n = g.length
      · rw [if_pos hl, ends_pure]
        exact ⟨ht, htn, fits_iff.mpr (by omega)⟩
      · rw [if_neg hl, ends_throw, fits_iff]
        exact ⟨by omega, rfl⟩
  refine (hcond.and writeBack_ends).mono ?_ fun _ _ h => h
  rintro _ t ⟨⟨ht, htn, hfit⟩, hdata⟩
  exact ⟨ht, htn, hfit, hdata⟩

structure SameOutside (g : Segment) (d e : Array UInt8) : Prop where
  size : e.size = d.size
  bytes : ∀ j, ¬(g.offset ≤ j ∧ j < g.offset + g.length) → e[j]? = d[j]?

theorem sameOutside_spill (k : Nat) : g.SameOutside d (g.spill p k d) := by
  refine ⟨size_spill k d, fun j hj => ?_⟩
  rw [getElem?_spill, if_neg (by omega)]

/-- The window of a file goes to a page and back. -/
structure Inverse (g : Segment) (f : File) : Prop where
  load : ∀ b, Ends g.load (f, b)
    (fun _ t => (g.length = 0 ∨ g.offset + g.length ≤ f.size) ∧ t.1.data = f.data ∧
      t.2.toList = (f.data.toList.drop g.offset).take g.length ++ List.replicate g.zeros 0)
    (fun e t => ¬(g.length = 0 ∨ g.offset + g.length ≤ f.size) ∧ e.toErrno = .eio ∧
      t.1.data = f.data)
  writeBack : f.failingWrites = 0 → ∀ p, Ends (g.writeBack p) f
    (fun _ t => (g.length = 0 ∨ g.offset + g.length ≤ f.size) ∧ g.SameOutside f.data t.data ∧
      ∀ b, Ends g.load (t, b)
        (fun _ u => u.2.toList = p.toList.take g.length ++ List.replicate g.zeros 0)
        (fun _ _ => False))
    (fun e t => ¬(g.length = 0 ∨ g.offset + g.length ≤ f.size) ∧ e = .eio ∧
      g.SameOutside f.data t.data)
  loadBack : f.failingWrites = 0 → ∀ b, Ends g.load (f, b)
    (fun _ t => Ends (g.writeBack t.2) t.1 (fun _ u => u.data = f.data) (fun _ _ => False))
    (fun _ t => t.1.data = f.data)

theorem load_writeBack_inverse (hf : f.Reliable) : g.Inverse f where
  load b := by
    refine (load_reliable hf).mono ?_
      fun _ _ h => ⟨(not_congr fits_iff).mp h.1.1, h.1.2, h.2⟩
    rintro _ t ⟨-, -, hdata, hfit, hp⟩
    refine ⟨fits_iff.mp hfit, hdata, ?_⟩
    rw [hp, toList_image hfit, window_eq_take_drop]
  writeBack hn p := by
    refine (writeBack_reliable hf hn).mono ?_ ?_
    · rintro _ t ⟨ht, -, hfit, hdata⟩
      refine ⟨fits_iff.mp hfit, hdata ▸ sameOutside_spill _, fun b => ?_⟩
      have hfit' : g.Fits t.size := by rwa [File.size, hdata, size_spill]
      refine (load_reliable ht).mono ?_ fun _ _ h => h.1.1 hfit'
      rintro _ u ⟨-, -, -, -, hu⟩
      rw [hu, toList_image hfit', hdata, window_spill hfit]
    · rintro _ t ⟨⟨hfit, he⟩, k, hdata⟩
      exact ⟨(not_congr fits_iff).mp hfit, he, hdata ▸ sameOutside_spill k⟩
  loadBack hn b := by
    refine (load_reliable hf).mono ?_ fun _ _ h => h.2
    rintro _ t ⟨ht, htn, hdata, hfit, hp⟩
    have hfit' : g.Fits t.1.size := by rwa [File.size, hdata]
    refine (writeBack_reliable ht (htn.trans hn)).mono ?_ fun _ _ h => h.1.1 hfit'
    rintro _ u ⟨-, -, -, hu⟩
    rw [hu, hp, hdata, spill_image hfit]

/-- Three bytes of a file come into a page and go back, and three others take their
place and are read again. From one byte further on the file ends too soon. -/
theorem load_writeBack_inverse_five_bytes :
    ∃ (f : File) (g g' : Segment) (p : PageBytes), f.Reliable ∧ f.failingWrites = 0 ∧
      f.data = #[1, 2, 3, 4, 5] ∧ g'.offset = g.offset + 1 ∧
      Ends g.load (f, Bytes.zero pageSize)
        (fun _ t => t.2.toList = [3, 4, 5] ++ List.replicate g.zeros 0) (fun _ _ => False) ∧
      Ends (g.writeBack p) f
        (fun _ t => t.data = #[1, 2, 9, 8, 7] ∧ g.SameOutside f.data t.data ∧
          ∀ b, Ends g.load (t, b)
            (fun _ u => u.2.toList = [9, 8, 7] ++ List.replicate g.zeros 0) (fun _ _ => False))
        (fun _ _ => False) ∧
      Ends g.load (f, p)
        (fun _ t => Ends (g.writeBack t.2) t.1 (fun _ u => u.data = f.data) (fun _ _ => False))
        (fun _ _ => False) ∧
      Ends g'.load (f, Bytes.zero pageSize) (fun _ _ => False)
        (fun e t => e.toErrno = .eio ∧ t.1.data = f.data) ∧
      Ends (g'.writeBack p) f (fun _ _ => False)
        (fun e t => e = .eio ∧ g'.SameOutside f.data t.data) := by
  let f : File := .ofList [1, 2, 3, 4, 5]
  have hf : f.Reliable := ⟨fun _ => rfl, fun _ => rfl, fun _ => rfl⟩
  let g : Segment := ⟨0, 2, 3, by decide⟩
  let g' : Segment := ⟨0, 3, 3, by decide⟩
  let p : PageBytes := Bytes.ofList pageSize [9, 8, 7, 6]
  have hin : g.length = 0 ∨ g.offset + g.length ≤ f.size := by decide
  have hpast : ¬(g'.length = 0 ∨ g'.offset + g'.length ≤ f.size) := by decide
  have hspill : g.spill p g.length f.data = #[1, 2, 9, 8, 7] := by decide +kernel
  have htake : p.toList.take g.length = [9, 8, 7] := by decide +kernel
  refine ⟨f, g, g', p, hf, rfl, rfl, rfl, ?_, ?_, ?_, ?_, ?_⟩
  · exact ((load_writeBack_inverse hf).load _).mono (fun _ _ h => h.2.2) fun _ _ h => h.1 hin
  · refine (((load_writeBack_inverse hf).writeBack rfl p).and (writeBack_reliable hf rfl)).mono ?_
      fun _ _ h => h.1.1 hin
    rintro _ t ⟨⟨-, hout, hback⟩, -, -, -, hdata⟩
    exact ⟨hdata.trans hspill, hout, fun b => htake ▸ hback b⟩
  · exact ((((load_writeBack_inverse hf).loadBack rfl p).and
      ((load_writeBack_inverse hf).load p))).mono (fun _ _ h => h.1) fun _ _ h => h.2.1 hin
  · exact ((load_writeBack_inverse hf).load _).mono (fun _ _ h => hpast h.1) fun _ _ h => h.2
  · exact ((load_writeBack_inverse hf).writeBack rfl p).mono (fun _ _ h => hpast h.1)
      fun _ _ h => h.2

end Segment

end Pager
