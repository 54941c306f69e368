import Pager.Machine.Mapping
import Pager.Proofs.Faulting

namespace Pager

open Step

namespace Layout

variable {l l' l'' : Layout} {cs ds : List Change}

theorem UnpinnedCourse.trans (h : l.UnpinnedCourse cs l') (h' : l'.UnpinnedCourse ds l'') :
    l.UnpinnedCourse (cs ++ ds) l'' :=
  ⟨h.course.append h'.course, h'.unpinned⟩

def without (l : Layout) (s : SpaceId) (vs : List VirtPage) : PageId → Option Page :=
  fun id => if id.space = s ∧ id.page ∈ vs then none else l.page id

def Vacant (l : Layout) (s : SpaceId) : Prop := ∀ v, l.page ⟨s, v⟩ = none

theorem Sound.entry_vacant (h : l.Sound) {s : SpaceId} (hv : l.Vacant s) (v : VirtPage) :
    l.entry ⟨s, v⟩ = none :=
  h.entry_eq_none (by rw [home?, hv v, Option.bind_none])

end Layout

namespace Machine

variable {m : Machine} {s : SpaceId} {a : VirtAddr} {id : PageId} {page : Page} {p : PhysPage}
  {f : FrameId} {g : Segment}

theorem destroyFile_ends (hs : m.layout.Sound) (hin : m.layout.InFrame id page f p) {span : Nat}
    {dirty : Bool} (hc : page.content = .file g span dirty) :
    Ends (destroy id page) (m.erasePage id)
      (fun _ t => m.layout.ChangeStep (.destroy id) t.layout ∧
        t.layout.page = Function.update m.layout.page id none ∧
        t.layout.frames = m.layout.frames.unbind f) (fun _ _ => False) := by
  obtain ⟨hpage, hf, hp⟩ := hin
  obtain ⟨fr, hfr, rfl⟩ := Option.map_eq_some_iff.mp hp
  have hl := layout_erasePage m id
  have hr : Ram.InRange (m.erasePage id).layout.capacity fr.page := hs.inRange hp
  simp only [destroy, hf, hc, giveUp, ends_bind]
  rw [ends_frame (m := m.erasePage id) (f := f) hfr, ends_readFrame hr, ends_handle]
  apply (writeBack_ends dirty).mono
  · intro _ t ht
    rw [ends_modify, layout_onFrames, ht, hl]
    exact ⟨.destroyFile id page f fr.page g span dirty ⟨hpage, hf, hp⟩ hc, rfl, rfl⟩
  · intro e t h
    obtain ⟨⟨n, rfl⟩, hd, k, ht⟩ := h
    simp only [ends_note, ends_modify]
    rw [hl] at hd
    rw [layout_onFrames, layout_emit_loss _ rfl, ht, hl]
    exact ⟨.destroyLost id page f fr.page g span dirty k ⟨hpage, hf, hp⟩ hc hd, rfl, rfl⟩

theorem destroy_ends (hs : m.layout.Sound) (hu : m.layout.Unpinned)
    (hpage : m.layout.page id = some page) :
    Ends (destroy id page) (m.erasePage id)
      (fun _ t => m.layout.ChangeStep (.destroy id) t.layout ∧ t.layout.Unpinned ∧
        t.layout.page = Function.update m.layout.page id none) (fun _ _ => False) := by
  have hl := layout_erasePage m id
  have hidle (hf : page.frame? = none) :
      Function.update m.layout.entry id none = m.layout.entry := by
    have hid : m.layout.home? id = none := by rw [Layout.home?, hpage, Option.bind_some, hf]
    rw [← hs.entry_eq_none hid, Function.update_eq_self]
  have hsame (hf : page.frame? = none) (hn : page.slot? = none) :
      m.layout.ChangeStep (.destroy id) (m.erasePage id).layout := by
    have h := Layout.ChangeStep.destroyIdle id page hpage hf hn
    rw [Layout.forget, hidle hf] at h
    rw [hl]
    exact h
  cases hf : page.frame? with
  | none =>
      cases hc : page.content with
      | unloaded | file =>
          simp only [destroy, hf, hc, giveUp, ends_pure]
          exact ⟨hsame hf (by rw [Page.slot?, hc]), hl ▸ hu, by rw [hl]⟩
      | anon slot =>
          obtain ⟨s, rfl⟩ := (hs.coherent hpage).slot_of_idle hf hc
          have hslot : m.layout.slot? id = some s := by
            simp [Layout.slot?, hpage, Page.slot?, hc]
          have hused := hs.test_slot hslot
          have hcount := hs.bitmap.used_pos hused
          simp only [destroy, hf, hc, giveUp, Option.forM, Option.isSome_none,
            Bool.false_eq_true, if_false, ends_bind, ends_pure]
          refine (freeSlot_ends (by rw [hl]; exact hused)
            (by rw [hl]; exact hcount)).mono ?_ fun _ _ h => h
          intro _ t ht
          have h := Layout.ChangeStep.destroySlot id page s hpage hf hc
          rw [Layout.forget, hidle hf] at h
          rw [ht, hl]
          exact ⟨h, hu, rfl⟩
  | some f =>
      obtain ⟨p, hp⟩ := hs.exists_phys? (show m.layout.home? id = some f by
        rw [Layout.home?, hpage, Option.bind_some, hf])
      cases hc : page.content with
      | unloaded => exact absurd hc ((hs.coherent hpage).ne_unloaded hf)
      | anon slot =>
          obtain rfl := (hs.coherent hpage).slot_of_frame hf hc
          obtain ⟨fr, hfr, rfl⟩ := Option.map_eq_some_iff.mp hp
          have hr : Ram.InRange (m.erasePage id).layout.capacity fr.page := hs.inRange hp
          simp only [destroy, hf, hc, giveUp, Option.forM, Option.isSome_some, if_true,
            pure_bind, ends_bind]
          rw [ends_frame (m := m.erasePage id) (f := f) hfr, ends_readFrame hr, ends_modify,
            ends_modify, layout_onFrames, layout_unmapPage, hl]
          exact ⟨.destroyFrame id page f hpage hf hc, Layout.unpinned_unbind hu, rfl⟩
      | file g span dirty =>
          refine (destroyFile_ends hs ⟨hpage, hf, hp⟩ hc).mono ?_ fun _ _ h => h
          intro _ t h
          obtain ⟨hd, hpages, hframes⟩ := h
          refine ⟨hd, ?_, hpages⟩
          have := Layout.unpinned_unbind (f := f) hu
          intro k hk
          rw [hframes] at hk
          exact this k hk

theorem removePage_ends (hs : m.layout.Sound) (hu : m.layout.Unpinned) :
    Ends (removePage id) m
      (fun _ t => ∃ cs, (∀ c ∈ cs, c = .destroy id) ∧ m.layout.UnpinnedCourse cs t.layout ∧
        t.layout.page = Function.update m.layout.page id none) (fun _ _ => False) := by
  simp only [removePage, ends_bind, ends_get]
  cases hpage : m.page? id with
  | none =>
      refine ⟨[], by simp, .refl hu, ?_⟩
      rw [← show m.layout.page id = none from hpage, Function.update_eq_self]
  | some page =>
      simp only [ends_bind, ends_modify, ends_pure]
      refine (destroy_ends hs hu hpage).mono ?_ fun _ _ h => h
      intro _ t h
      obtain ⟨hd, hut, hp⟩ := h
      exact ⟨[.destroy id], by simp, ⟨.single hd, hut⟩, hp⟩

theorem removeAll_ends (hs : m.layout.Sound) (hu : m.layout.Unpinned) (vs : List VirtPage) :
    Ends (removeAll s vs) m
      (fun _ t => ∃ cs, (∀ c ∈ cs, ∃ v ∈ vs, c = .destroy ⟨s, v⟩) ∧
        m.layout.UnpinnedCourse cs t.layout ∧
        t.layout.page = m.layout.without s vs) (fun _ _ => False) := by
  induction vs generalizing m with
  | nil =>
      refine ⟨[], by simp, .refl hu, ?_⟩
      funext id
      simp [Layout.without]
  | cons v vs ih =>
      simp only [removeAll, ends_bind, ends_discard]
      refine (removePage_ends hs hu).mono ?_ fun _ _ h => h
      intro _ t h
      obtain ⟨cs, hcs, hw, hp⟩ := h
      refine (ih (hs.of_course hw.course) hw.unpinned).mono ?_ fun _ _ h => h
      intro _ t' h
      obtain ⟨ds, hds, hw', hp'⟩ := h
      refine ⟨cs ++ ds, ?_, hw.trans hw', ?_⟩
      · intro c hc
        rcases List.mem_append.mp hc with hc | hc
        · exact ⟨v, by simp, hcs c hc⟩
        · obtain ⟨w, hw, rfl⟩ := hds c hc
          exact ⟨w, List.mem_cons_of_mem _ hw, rfl⟩
      · rw [hp']
        funext id
        obtain ⟨k, w⟩ := id
        simp only [Layout.without, hp, Function.update_apply, PageId.mk.injEq, List.mem_cons]
        by_cases hk : k = s <;> by_cases hw : w = v <;> simp [hk, hw]

theorem removeFrom_eq {v : VirtPage} {is : List Nat} (h : ∀ i ∈ is, v.toNat + i < wordBound) :
    removeFrom s v is = removeAll s (is.map v.plus) := by
  induction is with
  | nil => rfl
  | cons i is ih =>
      rw [removeFrom, VirtPage.add?_eq_some (h i (by simp)),
        ih fun j hj => h j (List.mem_cons_of_mem _ hj)]
      rfl

theorem removeFrom_span {v : VirtPage} (hs : m.layout.Sound)
    (hpage : m.layout.page ⟨s, v⟩ = some page) :
    removeFrom s v (List.range page.span) =
      removeAll s ((List.range page.span).map v.plus) := by
  have hle : v.toNat + page.span ≤ wordBound := (hs.pages _ page hpage).le
  refine removeFrom_eq fun i hi => ?_
  have := List.mem_range.mp hi
  omega

theorem munmap_ends (hs : m.layout.Sound) (hu : m.layout.Unpinned) :
    Ends (munmap s a) m
      (fun _ t => ∃ vs cs,
        vs = (List.range (((m.layout.page ⟨s, a.page⟩).map Page.span).getD 0)).map a.page.plus ∧
        (∀ c ∈ cs, ∃ v ∈ vs, c = .destroy ⟨s, v⟩) ∧ m.layout.UnpinnedCourse cs t.layout ∧
        t.layout.page = m.layout.without s vs) (fun _ _ => False) := by
  simp only [munmap, ends_bind, ends_get]
  have hfind : m.find? s a = m.layout.page ⟨s, a.page⟩ := rfl
  rw [hfind]
  cases hpage : m.layout.page ⟨s, a.page⟩ with
  | none =>
      refine ⟨[], [], by simp, by simp, .refl hu, ?_⟩
      funext id
      simp [Layout.without]
  | some page =>
      simp only [removeFrom_span hs hpage, ends_bind, ends_note]
      refine (removeAll_ends hs hu _).mono ?_ fun _ _ h => h
      intro _ t h
      obtain ⟨cs, hcs, h⟩ := h
      rw [layout_emit _ rfl]
      exact ⟨_, cs, by simp, hcs, h⟩

theorem killInOrder_ends (hs : m.layout.Sound) (hu : m.layout.Unpinned) {order : List VirtPage}
    (ho : order.Perm (m.pages s).keys) :
    Ends (killInOrder s order) m
      (fun _ t => ∃ cs, (∀ c ∈ cs, ∃ v, c = .destroy ⟨s, v⟩) ∧ m.layout.UnpinnedCourse cs t.layout ∧
        t.layout.page = fun id => if id.space = s then none else m.layout.page id)
      (fun _ _ => False) := by
  simp only [killInOrder, ends_bind, ends_get]
  refine (removeAll_ends hs hu order).mono ?_ fun _ _ h => h
  intro _ t h
  obtain ⟨cs, hcs, hw, hp⟩ := h
  have hpages : t.layout.page = fun id => if id.space = s then none else m.layout.page id := by
    rw [hp]
    funext id
    obtain ⟨k, v⟩ := id
    by_cases hk : k = s
    · subst hk
      simp only [Layout.without, true_and, if_true]
      split
      next => rfl
      next hv =>
        rw [ho.mem_iff, PageMap.mem_keys] at hv
        have hnone : (m.pages k).get? v = none := by simpa [PageMap.contains] using hv
        exact hnone
    · simp [Layout.without, hk]
  have hcs' : ∀ c ∈ cs, ∃ v, c = .destroy ⟨s, v⟩ := fun c hc => by
    obtain ⟨v, -, rfl⟩ := hcs c hc
    exact ⟨v, rfl⟩
  split
  · rw [ends_note, layout_emit _ rfl]
    exact ⟨cs, hcs', hw, hpages⟩
  · exact ⟨cs, hcs', hw, hpages⟩

theorem layout_setSpace_vacant (hs : m.layout.Sound) (hv : m.layout.Vacant s) {x : Space}
    (hx : x.pages = {}) (ht : x.table = {}) : (m.setSpace s x).layout = m.layout := by
  rw [layout_setSpace]
  have hp : (fun id : PageId => if s = id.space then x.pages.get? id.page else m.page? id) =
      m.layout.page := by
    funext id
    obtain ⟨k, v⟩ := id
    split
    next h =>
      subst h
      rw [hx]
      exact (Std.ExtTreeMap.getElem?_empty ..).trans (hv v).symm
    next => rfl
  have he : (fun id : PageId => if s = id.space then x.table.get? id.page else m.mapping? id) =
      m.layout.entry := by
    funext id
    obtain ⟨k, v⟩ := id
    split
    next h =>
      subst h
      rw [ht]
      exact (Std.ExtTreeMap.getElem?_empty ..).trans (hs.entry_vacant hv v).symm
    next => rfl
  rw [hp, he]

theorem layout_create (hs : m.layout.Sound) (hv : m.layout.Vacant s) (t : Trap) :
    (m.create s t).layout = m.layout :=
  layout_setSpace_vacant hs hv rfl rfl

theorem dropInOrder_ends (hs : m.layout.Sound) (hu : m.layout.Unpinned) {order : List VirtPage}
    (ho : order.Perm (m.pages s).keys) :
    Ends (do killInOrder s order; modify (setSpace s default) : Step Machine Unit) m
      (fun _ t => ∃ cs, (∀ c ∈ cs, ∃ v, c = .destroy ⟨s, v⟩) ∧ m.layout.UnpinnedCourse cs t.layout ∧
        t.layout.page = fun id => if id.space = s then none else m.layout.page id)
      (fun _ _ => False) := by
  simp only [ends_bind, ends_modify]
  refine (killInOrder_ends hs hu ho).mono ?_ fun _ _ h => h
  intro _ t h
  obtain ⟨cs, hcs, hw, hp⟩ := h
  have hv : t.layout.Vacant s := fun v => by rw [hp]; exact if_pos rfl
  rw [layout_setSpace_vacant (hs.of_course hw.course) hv rfl rfl]
  exact ⟨cs, hcs, hw, hp⟩

theorem ends_drop {Q : Unit → Machine → Prop} {E : Failure → Machine → Prop} :
    Ends (drop s) m Q E ↔
      Ends (do killInOrder s (m.pages s).keys; modify (setSpace s default) : Step Machine Unit) m
        Q E := by
  simp only [drop, kill, ends_bind, ends_get]

end Machine

end Pager
