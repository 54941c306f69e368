import Pager.Machine.Eviction
import Pager.Proofs.Changes

namespace Pager.Machine

open Step

variable {m : Machine} {id : PageId} {page : Page} {p : PhysPage} {f : FrameId} {s : Slot}
  {g : Segment} {b : PageBytes}

theorem ends_note {e : Event} {Q : Unit → Machine → Prop} {E : Failure → Machine → Prop} :
    Ends (note e) m Q E ↔ Q () (m.emit e) := Iff.rfl

theorem ends_frame {fr : Frame} (h : m.frames.get? f = some fr) {Q : Frame → Machine → Prop}
    {E : Failure → Machine → Prop} : Ends (frame f) m Q E ↔ Q fr m := by
  simp [frame, h]

theorem ends_onFile {α : Type} (k : FileId) (x : EStateM Errno File α) {Q : α → Machine → Prop}
    {E : Failure → Machine → Prop} :
    Ends (onFile k x) m Q E ↔ Ends x (m.files.get k) (fun a d => Q a (m.withFile k d))
      (fun e d => E (.errno e) (m.withFile k d)) := by
  rw [onFile, ends_zoom]
  rfl

theorem install_ends (w : Bool) :
    Ends (install id p w) m
      (fun _ t => t.layout = { m.layout with
        entry := Function.update m.layout.entry id (some (.fresh p w)) })
      (fun e t => (∃ k, e = .errno k) ∧ t.layout = m.layout) := by
  unfold Ends install
  simp only
  rcases (m.space id.space).refusals.ask with ⟨_ | _, t⟩
  · have hpage : (fun o : PageId => if id.space = o.space then
        (m.space id.space).pages.get? o.page else m.page? o) = m.page? := by
      funext o
      split
      next h => rw [page?_eq, h]
      next => rfl
    have hentry : (fun o : PageId => if id.space = o.space then
          ((m.space id.space).table.install id.page p w).get? o.page else m.mapping? o) =
        Function.update m.mapping? id (some (.fresh p w)) := by
      funext o
      obtain ⟨k, v⟩ := id
      obtain ⟨j, u⟩ := o
      rw [Function.update_apply]
      by_cases hk : k = j
      · subst hk
        simp only [if_true, PageTable.get?_install, PageId.mk.injEq, true_and, eq_comm (a := v)]
        split <;> rfl
      · simp [hk, Ne.symm hk]
    apply (layout_setSpace m _ _).trans
    simp only [hpage, hentry]
    rfl
  · exact ⟨⟨_, rfl⟩, layout_setSpace_same m rfl rfl⟩

theorem allocSlot_ends :
    Ends allocSlot m
      (fun s t => s.index < m.layout.bitmap.slots ∧ m.layout.bitmap.test s.index = false ∧
        t.layout = { m.layout with bitmap := m.layout.bitmap.mark s.index })
      (fun e t => (∃ k, e = .errno k) ∧ t.layout = m.layout) := by
  have halloc : Ends Swap.alloc m.swap
      (fun s w => s.index < m.swap.bitmap.slots ∧ m.swap.bitmap.test s.index = false ∧
        w = { m.swap with bitmap := m.swap.bitmap.mark s.index })
      (fun e w => (∃ k, e = .errno k) ∧ w = m.swap) := by
    unfold Ends Swap.alloc Swap.Bitmap.take?
    cases hf : m.swap.bitmap.firstFree? with
    | none => exact ⟨⟨_, rfl⟩, rfl⟩
    | some i => exact ⟨(Swap.Bitmap.firstFree?_free hf).1, (Swap.Bitmap.firstFree?_free hf).2, rfl⟩
  rw [allocSlot, ends_handle, onSwap, ends_zoom]
  apply halloc.mono
  · intro s w h
    obtain ⟨hi, ht, rfl⟩ := h
    exact ⟨hi, ht, layout_withSwap m _⟩
  · intro e w h
    obtain ⟨⟨k, rfl⟩, rfl⟩ := h
    simp only [id, ends_bind, ends_note, ends_fail]
    exact ⟨⟨k, rfl⟩, layout_emit _ rfl⟩

theorem freeSlot_ends (hu : m.layout.bitmap.test s.index = true)
    (hn : 0 < m.layout.bitmap.used) :
    Ends (freeSlot s) m
      (fun _ t => t.layout = { m.layout with bitmap := m.layout.bitmap.unmark s.index })
      (fun _ _ => False) := by
  rw [freeSlot, onSwap, ends_zoom]
  refine (Swap.free_ends hu hn).mono ?_ fun _ _ h => h
  rintro _ t rfl
  exact layout_withSwap m _

theorem writeSlot_ends (h : Swap.Addressable s) :
    Ends (writeSlot s b) m
      (fun _ t => t.layout = { m.layout with stored := Function.update m.layout.stored s b })
      (fun e t => (∃ k, e = .errno k) ∧ ∃ stored, (∀ o, o ≠ s → stored o = m.layout.stored o) ∧
        t.layout = { m.layout with stored := stored }) := by
  rw [writeSlot, onSwap, ends_zoom]
  apply (Swap.write_ends h).mono
  · intro _ w h
    obtain ⟨hb, hs⟩ := h
    exact layout_withSwap_of_eq m hb hs
  · intro e w h
    obtain ⟨he, hb, hs⟩ := h
    exact ⟨he, w.stored, hs, layout_withSwap_of_eq m hb rfl⟩

theorem writeBack_ends (dirty : Bool) :
    Ends (writeBack id g dirty b) m
      (fun _ t => t.layout = { m.layout with
        entry := Function.update m.layout.entry id none
        data := if dirty || m.layout.hardDirty id then
          Function.update m.layout.data g.file (g.spill b g.length (m.layout.data g.file))
          else m.layout.data })
      (fun e t => (∃ k, e = .errno k) ∧ (dirty || m.layout.hardDirty id) = true ∧
        ∃ k, t.layout = { m.layout with
          entry := Function.update m.layout.entry id none
          data := Function.update m.layout.data g.file
            (g.spill b k (m.layout.data g.file)) }) := by
  have hdirty : m.hasFlag id .dirty = m.layout.hardDirty id := hasFlag_layout m id .dirty
  simp only [writeBack, ends_bind, ends_get, ends_modify, hdirty]
  cases dirty || m.layout.hardDirty id with
  | false => exact layout_unmapPage m id
  | true =>
      rw [if_pos rfl, ends_bind, ends_note, ends_onFile]
      have hl (d : File) : (((m.unmapPage id).emit (.writingBack id.page g.offset)).withFile g.file
          d).layout = { m.layout with
            entry := Function.update m.layout.entry id none
            data := Function.update m.layout.data g.file d.data } := by
        rw [layout_withFile, layout_emit _ rfl, layout_unmapPage]
      apply Segment.writeBack_ends.mono
      · intro _ d hd
        rw [hl, hd]
        rfl
      · intro e d h
        obtain ⟨k, hd⟩ := h
        refine ⟨⟨e, rfl⟩, rfl, k, ?_⟩
        rw [hl, hd]
        rfl

end Pager.Machine
