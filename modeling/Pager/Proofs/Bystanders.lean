import Pager.Proofs.Laying
import Pager.Proofs.Staying

namespace Pager

open Step

namespace Layout

variable {l l' : Layout} {id o : PageId} {v : Option PageId}

theorem Thwarts.stays (h : l.Thwarts o v l') (hs : l.Sound) (hu : l.Unpinned) :
    Stays id l l' := by
  cases h with
  | refused => exact .refl id l
  | lacks _ h => exact h.stays
  | undone l₁ f p b runs _ h _ =>
      have ha := h.acquired hu
      have hs₁ := hs.of_rearranged ha.reach
      exact (h.stays hs).trans (.of_bytes hs₁ ha.spare.1
        (fun hf => home?_ne_spare hs₁ ha.spare hf rfl) rfl
        (funext fun g => congrFun FrameTable.phys?_unpin g) fun _ hr => Function.update_of_ne hr ..)

theorem Stays.of_destroy (h : l.ChangeStep (.destroy o) l') (hid : id ≠ o) : Stays id l l' := by
  cases h with
  | destroyIdle | destroySlot =>
      exact .of_page (Function.update_of_ne hid ..) (fun _ _ => rfl) fun _ _ _ _ => rfl
  | destroyFrame | destroyFile | destroyLost =>
      exact .of_page (Function.update_of_ne hid ..)
        (fun k _ => congrFun FrameTable.phys?_unbind k) fun _ _ _ _ => rfl

def Spares (id : PageId) (l l' : Layout) : Prop := l'.page id ≠ none → Stays id l l'

end Layout

namespace Machine

open Layout

variable {m : Machine} {id o parent child : PageId} {page : Page} {s src dst : SpaceId}
  {a : VirtAddr} {v : VirtPage} {vs : List VirtPage}

theorem removePage_stays (hs : m.layout.Sound) (hu : m.layout.Unpinned) (hid : id ≠ o) :
    Ends (removePage o) m (fun _ t => Stays id m.layout t.layout) (fun _ _ => False) := by
  simp only [removePage, ends_bind, ends_get]
  cases hpage : m.page? o with
  | none => exact .refl id m.layout
  | some page =>
      simp only [ends_bind, ends_modify, ends_pure]
      exact (destroy_ends hs hu hpage).mono (fun _ _ h => .of_destroy h.1 hid) fun _ _ h => h

theorem remove_spares (hs : m.layout.Sound) (hu : m.layout.Unpinned) :
    Ends (remove s a) m (fun _ t => Spares id m.layout t.layout) (fun _ _ => False) := by
  by_cases hid : id = ⟨s, a.page⟩
  · refine (removePage_ends hs hu).mono ?_ fun _ _ h => h
    rintro _ t ⟨cs, -, -, hp⟩ hne
    rw [hp, hid, Function.update_self] at hne
    exact absurd rfl hne
  · exact (removePage_stays hs hu hid).mono (fun _ _ h _ => h) fun _ _ h => h

theorem removeAll_stays (hs : m.layout.Sound) (hu : m.layout.Unpinned)
    (hid : id.space = s → id.page ∉ vs) :
    Ends (removeAll s vs) m (fun _ t => Stays id m.layout t.layout) (fun _ _ => False) := by
  induction vs generalizing m with
  | nil => exact .refl id m.layout
  | cons v vs ih =>
      have hne : id ≠ ⟨s, v⟩ := by
        rintro rfl
        exact hid rfl List.mem_cons_self
      simp only [removeAll, ends_bind, ends_discard]
      refine ((removePage_ends hs hu).and (removePage_stays hs hu hne)).mono ?_ fun _ _ h => h.1
      rintro _ t ⟨⟨cs, -, hw, -⟩, hst⟩
      exact (ih (hs.of_course hw.course) hw.unpinned
        fun hsp hmem => hid hsp (List.mem_cons_of_mem _ hmem)).mono
        (fun _ _ h => hst.trans h) fun _ _ h => h

theorem removeAll_spares (id : PageId) (hs : m.layout.Sound) (hu : m.layout.Unpinned) :
    Ends (removeAll s vs) m (fun _ t => Spares id m.layout t.layout) (fun _ _ => False) := by
  by_cases hid : id.space = s ∧ id.page ∈ vs
  · refine (removeAll_ends hs hu vs).mono ?_ fun _ _ h => h
    rintro _ t ⟨cs, -, -, hp⟩ hne
    rw [hp, without, if_pos hid] at hne
    exact absurd rfl hne
  · exact (removeAll_stays hs hu fun hsp hmem => hid ⟨hsp, hmem⟩).mono
      (fun _ _ h _ => h) fun _ _ h => h

theorem munmap_spares (hs : m.layout.Sound) (hu : m.layout.Unpinned) :
    Ends (munmap s a) m (fun _ t => Spares id m.layout t.layout) (fun _ _ => False) := by
  simp only [munmap, ends_bind, ends_get]
  rw [show m.find? s a = m.layout.page ⟨s, a.page⟩ from rfl]
  cases hpage : m.layout.page ⟨s, a.page⟩ with
  | none => exact fun _ => .refl id m.layout
  | some page =>
      simp only [removeFrom_span hs hpage, ends_bind, ends_note]
      refine (removeAll_spares id hs hu).mono (fun _ t h => ?_) fun _ _ h => h
      rwa [layout_emit t rfl]

theorem killInOrder_spares (id : PageId) (hs : m.layout.Sound) (hu : m.layout.Unpinned)
    (order : List VirtPage) :
    Ends (killInOrder s order) m (fun _ t => Spares id m.layout t.layout) (fun _ _ => False) := by
  simp only [killInOrder, ends_bind, ends_get]
  refine (removeAll_spares id hs hu).mono ?_ fun _ _ h => h
  intro _ t h
  split
  · rw [ends_note, layout_emit t rfl]
    exact h
  · exact h

theorem dropInOrder_spares (hs : m.layout.Sound) (hu : m.layout.Unpinned)
    {order : List VirtPage} (ho : order.Perm (m.pages s).keys) :
    Ends (do killInOrder s order; modify (setSpace s default) : Step Machine Unit) m
      (fun _ t => Spares id m.layout t.layout) (fun _ _ => False) := by
  simp only [ends_bind, ends_modify]
  refine ((killInOrder_ends hs hu ho).and (killInOrder_spares id hs hu order)).mono ?_
    fun _ _ h => h.1
  rintro _ t ⟨⟨cs, -, hw, hp⟩, hsp⟩
  have hv : t.layout.Vacant s := fun v => by rw [hp]; exact if_pos rfl
  rwa [layout_setSpace_vacant (hs.of_course hw.course) hv rfl rfl]

theorem register_stays (hl : page.loaded = false) (hh : WellFormed o.page page)
    (hthere : m.layout.page id ≠ none) :
    Ends (register o page) m
      (fun _ t => m.layout.ChangeStep (.register o page) t.layout ∧ id ≠ o ∧
        Stays id m.layout t.layout)
      (fun _ t => Stays id m.layout t.layout) := by
  refine (register_ends hl hh).mono ?_ ?_
  · intro _ t hr
    have hid : id ≠ o := by
      rintro rfl
      exact hthere hr.of_register.1
    exact ⟨hr, hid, .of_register hr hid⟩
  · rintro e t ⟨-, ht⟩
    rw [ht]
    exact .refl id m.layout

theorem alloc_stays {type : PageType} {writable : Bool} {loader : Option Loader}
    (hthere : m.layout.page id ≠ none) :
    Ends (alloc s type a writable loader) m (fun _ t => Stays id m.layout t.layout)
      (fun _ t => Stays id m.layout t.layout) := by
  cases type with
  | uninit | pageCache => exact .refl id m.layout
  | anon | file =>
      exact (register_stays rfl (wellFormed_unloaded ..) hthere).mono
        (fun _ _ h => h.2.2) fun _ _ h => h

theorem setUpStack_stays (hs : m.layout.Sound) (hu : m.layout.Unpinned)
    (hthere : m.layout.page id ≠ none) :
    Ends (setUpStack s) m (fun _ t => Stays id m.layout t.layout)
      (fun _ t => Stays id m.layout t.layout) := by
  simp only [setUpStack, alloc, ends_bind, ends_get, ends_ofOption, ends_pure]
  refine ⟨fun a _ => ?_, fun _ => .refl id m.layout⟩
  refine (register_stays rfl (wellFormed_unloaded ..) hthere).mono ?_ fun _ _ h => h
  rintro _ t ⟨hr, hid, hst⟩
  exact (claim_stays (hs.of_step hr) (hr.of_register.2.2.2 hu) hid).mono
    (fun _ _ h => hst.trans h) fun _ _ h => hst.trans h

theorem mmap_stays {len offset : Nat} {writable : Bool} {file : FileId}
    (hthere : m.layout.page id ≠ none) :
    Ends (mmap s a len writable file offset) m (fun _ t => Stays id m.layout t.layout)
      (fun _ t => Stays id m.layout t.layout) := by
  refine mmap_lays.mono ?_ ?_
  · rintro r t ⟨-, hm, hlays⟩
    have hid : t.page? id = m.page? id := hlays.others id fun i hi => by
      rintro rfl
      exact hthere (hm.free i (List.mem_range.mp hi))
    rw [hlays.rest]
    exact .of_page hid (fun _ _ => rfl) fun _ _ _ _ => rfl
  · rintro e t ⟨-, -, ht⟩
    rw [ht]
    exact .refl id m.layout

theorem mmapDescriptor_stays {len offset fd : Nat} {writable : Bool} {fds : Descriptors}
    (hthere : m.layout.page id ≠ none) :
    Ends (mmapDescriptor s a len writable fd fds offset) m
      (fun _ t => Stays id m.layout t.layout) (fun _ t => Stays id m.layout t.layout) := by
  simp only [mmapDescriptor, ends_bind, ends_requireOr]
  refine ⟨fun _ => ?_, fun _ => ?_⟩
  · cases fds.get? fd with
    | none => exact .refl id m.layout
    | some file => exact mmap_stays hthere
  · rw [layout_emit m rfl]
    exact .refl id m.layout

theorem copyResident_stays (hs : m.layout.Sound) (hu : m.layout.Unpinned)
    (hpage : m.layout.page child = some page) (hn : page.frame? = none) (hid : id ≠ child) :
    Ends (copyResident parent child) m (fun _ t => Stays id m.layout t.layout)
      (fun _ t => Stays id m.layout t.layout) := by
  have hget : m.page? child = some page := hpage
  simp only [copyResident, ends_bind, ends_get, hget]
  refine ((occupy_ends hs hu hpage hn).and (occupy_stays hs hu hpage hn hid)).mono ?_
    fun _ _ h => h.2
  rintro ⟨f, p⟩ t ⟨⟨l₁, c, cs, ha, hb⟩, hst⟩
  have hs₁ := hs.of_course (Course.after ha.reach hb.course)
  have hin := hb.inFrame ha.spare.1
  have hcopy (b : PageBytes) : Stays id t.layout { t.layout with
      bytes := Function.update t.layout.bytes p b
      frames := t.layout.frames.unpin f } :=
    .of_bytes hs₁ hin.2.2 (fun hf => home?_ne_of_ne hs₁ hin.home?_eq hid hf rfl) rfl
      (funext fun k => congrFun FrameTable.phys?_unpin k) fun _ hr => Function.update_of_ne hr ..
  rw [ends_ensuring]
  simp only [ends_modify]
  refine (copyContent_ends hs₁ (hs₁.inRange hin.2.2)).mono ?_ ?_
  · intro _ u hl
    rw [layout_onFrames, hl]
    exact hst.trans (hcopy _)
  · rintro e u ⟨-, -, b, i, -, -, hl⟩
    rw [layout_onFrames, hl]
    exact hst.trans (hcopy _)

theorem copyPage_stays (hs : m.layout.Sound) (hu : m.layout.Unpinned)
    (hthere : m.layout.page id ≠ none) :
    Ends (copyPage src dst v) m (fun _ t => Stays id m.layout t.layout)
      (fun _ t => Stays id m.layout t.layout) := by
  have hcopy {t : Machine} {copy : Page} (hn : copy.frame? = none)
      (h : m.layout.ChangeStep (.register ⟨dst, v⟩ copy) t.layout ∧ id ≠ ⟨dst, v⟩ ∧
        Stays id m.layout t.layout) :
      Ends (copyResident ⟨src, v⟩ ⟨dst, v⟩) t (fun _ u => Stays id m.layout u.layout)
        (fun _ u => Stays id m.layout u.layout) := by
    obtain ⟨hr, hid, hst⟩ := h
    exact (copyResident_stays (hs.of_step hr) (hr.of_register.2.2.2 hu) hr.of_register.2.2.1 hn
      hid).mono (fun _ _ h => hst.trans h) fun _ _ h => hst.trans h
  simp only [copyPage, ends_bind, ends_get]
  cases hget : m.page? ⟨src, v⟩ with
  | none => exact .refl id m.layout
  | some page =>
      have hh : WellFormed v page := hs.pages _ page hget
      cases hcont : page.content with
      | unloaded kind loader span =>
          have hl : page.loaded = false := by rw [Page.loaded, hcont]
          simp only [hcont, ends_bind, ← hh.coherent.eq_unloaded hcont]
          refine (register_stays hl hh hthere).mono ?_ fun _ _ h => h
          rintro _ t ⟨hr, -, hst⟩
          rw [ends_demandHead (canHead_of_unloaded hr.of_register.2.2.1 hl)]
          exact hst
      | anon slot =>
          simp only [hcont, ends_bind]
          exact (register_stays rfl (wellFormed_unloaded ..) hthere).mono
            (fun _ _ h => hcopy rfl h) fun _ _ h => h
      | file g span dirty =>
          have hh' := hh.unload hcont (some (.segment g))
          simp only [hcont, ends_bind]
          refine (register_stays rfl hh' hthere).mono ?_ fun _ _ h => h
          intro _ t h
          rw [ends_demandHead (canHead_of_unloaded h.1.of_register.2.2.1 rfl)]
          split
          · exact hcopy rfl h
          · exact h.2.2

theorem copyPages_stays (hs : m.layout.Sound) (hu : m.layout.Unpinned) (hne : src ≠ dst)
    (hthere : m.layout.page id ≠ none) :
    Ends (copyPages src dst vs) m (fun _ t => Stays id m.layout t.layout)
      (fun _ t => Stays id m.layout t.layout) := by
  induction vs generalizing m with
  | nil => exact .refl id m.layout
  | cons v vs ih =>
      simp only [copyPages, ends_bind]
      refine ((copyPage_ends hs hu hne).and (copyPage_stays hs hu hthere)).mono ?_ fun _ _ h => h.2
      rintro _ t ⟨⟨cs, hc⟩, hst⟩
      exact (ih (hs.of_course hc.course.course) hc.course.unpinned
        fun hnone => hthere (hc.page_eq_none hnone)).mono
        (fun _ _ h => hst.trans h) fun _ _ h => hst.trans h

theorem copyInOrder_stays (hs : m.layout.Sound) (hu : m.layout.Unpinned) (hne : src ≠ dst)
    (hthere : m.layout.page id ≠ none) :
    Ends (copyInOrder src dst vs) m (fun _ t => Stays id m.layout t.layout)
      (fun _ t => Stays id m.layout t.layout) := by
  simp only [copyInOrder, ends_bind, ends_get, ends_note]
  refine (copyPages_stays hs hu hne hthere).mono (fun _ t h => ?_) fun _ _ h => h
  rwa [layout_emit t rfl]

theorem forkInOrder_spares (hs : m.layout.Sound) (hu : m.layout.Unpinned) (hne : src ≠ dst)
    (hvs : vs.Nodup) (hv : m.layout.Vacant dst) (refusals : Trap)
    (hthere : m.layout.page id ≠ none) :
    Ends (forkInOrder src dst refusals vs) m (fun _ t => Spares id m.layout t.layout)
      (fun _ t => Spares id m.layout t.layout) := by
  have hl := layout_create hs hv refusals
  have hs' : (m.create dst refusals).layout.Sound := hl ▸ hs
  have hu' : (m.create dst refusals).layout.Unpinned := hl ▸ hu
  simp only [forkInOrder, ends_bind, ends_modify, ends_onFailure]
  rw [← hl] at hthere ⊢
  refine ((copyInOrder_ends hs' hu' hne hvs).and (copyInOrder_stays hs' hu' hne hthere)).mono
    (fun _ _ h _ => h.2) ?_
  rintro e t ⟨⟨-, cs, h⟩, hst⟩
  exact (ends_drop.mpr (dropInOrder_spares (hs'.of_course h.course.course) h.course.unpinned
    (.refl _))).mono (fun _ _ hsp hne => hst.trans (hsp hne)) fun _ _ h => h.elim

end Machine

end Pager
