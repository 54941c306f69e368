import Pager.Proofs.FileRuns
import Pager.Proofs.Forking
import Pager.Proofs.Pending

namespace Pager

open Step

namespace Machine

variable {m t u : Machine} {id : PageId} {page : Page} {s child : SpaceId} {cs : List Change}
  {vs order : List VirtPage} {l : Layout}

def pending? (m : Machine) (id : PageId) : Option (Segment × PageBytes) :=
  (m.page? id).bind fun page =>
    match page.frame?, page.content with
    | some f, .file g _ dirty =>
        if dirty || m.hasFlag id .dirty then
          (m.frames.get? f).map (fun fr => (g, m.ram.bytes fr.page))
        else none
    | _, _ => none

/-- A space is gone, and nothing is left of it but that pages of other spaces
are in other places. Changes that a page had are in its frame or in its file,
unless the file has there what another page had. -/
structure Traceless (m : Machine) (s : SpaceId) (t : Machine) : Prop where
  spared : m.Spared s t
  pending : ∀ id g b, id.space ≠ s → m.pending? id = some (g, b) →
    t.pending? id = some (g, b) ∨
      ∀ i, g.Covers g.file i → ∃ o g' b', m.pending? o = some (g', b') ∧ g'.Covers g.file i ∧
        t.fileByte? g.file i = b'[i - g'.offset]?
  vacant : ∀ v, t.page? ⟨s, v⟩ = none
  unmapped : ∀ v, t.mapping? ⟨s, v⟩ = none
  frames : ∀ f fr, t.frames.get? f = some fr →
    fr.pinned = false ∧ ∀ id, fr.owner = some id → id.space ≠ s
  slots : ∀ k, t.swap.isUsed k = true →
    ∃ id page, id.space ≠ s ∧ t.page? id = some page ∧ page.slot? = some k

/-- What was made of the space can be given up, in whatever order, without a
trace and without writing to a file. -/
def Dissolves (m : Machine) (s : SpaceId) (u : Machine) : Prop :=
  ∀ order, order.Perm (u.pages s).keys → ∃ t,
    (do killInOrder s order; modify (setSpace s default) : Step Machine Unit) u = .ok () t ∧
      t.files = u.files ∧ m.Traceless s t

theorem pending?_eq (m : Machine) (id : PageId) : m.pending? id = m.layout.pending? id := by
  rw [pending?, Layout.pending?, Layout.hold?, Option.bind_assoc]
  refine congrArg (Option.bind (m.page? id)) (funext fun page => ?_)
  obtain ⟨w, o, c⟩ := page
  cases c with
  | unloaded | anon => cases o <;> rfl
  | file g span dirty =>
      cases o with
      | none => rfl
      | some f =>
          have hd : m.hasFlag id .dirty = m.layout.hardDirty id := hasFlag_layout m id .dirty
          have hp : m.layout.phys? f = (m.frames.get? f).map Frame.page := rfl
          simp only [Page.hold?, hd, hp, Option.bind_map, Option.map_map]
          cases m.frames.get? f with
          | none => split <;> rfl
          | some fr => rfl

theorem traceless_of_undoes (hs : m.layout.Sound) (hf : m.layout.Fitting)
    (hv : m.layout.Vacant s) (h : Layout.Undoes m.layout s cs t.layout) : m.Traceless s t := by
  have ht := hs.of_course h.course.course
  have hsaves : Layout.Saves m.layout t.layout := by
    refine (Layout.Saves.refl hf).of_course hs h.course.course fun c hc => ⟨h.kinds c hc, ?_⟩
    have hnone := hv c.target.page
    rwa [← h.within c hc] at hnone
  refine ⟨spared_of_course hs h.course.course h.within h.drifts, fun id g b _ hp => ?_, h.vacant,
    ht.entry_vacant h.vacant, fun f fr hfr => ⟨?_, ?_⟩, fun k hk => ?_⟩
  · simp only [pending?_eq] at hp ⊢
    exact hsaves.saved id g b hp
  · exact Bool.eq_false_iff.mpr fun hpin => h.course.unpinned f ⟨fr, hfr, hpin⟩
  · rintro id hid rfl
    have howner : t.layout.owner? f = some id := by
      rw [Layout.owner?, FrameTable.owner?, show t.layout.frames.get? f = some fr from hfr,
        Option.bind_some, hid]
    have hhome := (ht.owners f id).mp howner
    rw [Layout.home?, show t.layout.page id = none from h.vacant id.page, Option.bind_none] at hhome
    cases hhome
  · obtain ⟨id, hid⟩ := (ht.slots.used_iff k).mp hk
    obtain ⟨page, hpage, hslot⟩ := Option.bind_eq_some_iff.mp hid
    refine ⟨id, page, ?_, hpage, hslot⟩
    rintro rfl
    rw [show t.layout.page id = none from h.vacant id.page] at hpage
    cases hpage

theorem freeSlot_files (k : Slot) :
    Ends (freeSlot k) m (fun _ t => t.files = m.files) (fun _ _ => True) := by
  rw [freeSlot, onSwap, ends_zoom]
  exact (ends_self _ _).mono (fun _ _ _ => rfl) fun _ _ _ => trivial

theorem readFrame_same (p : PhysPage) :
    Ends (readFrame p) m (fun _ t => t = m) (fun _ _ => True) := by
  simp [readFrame]

theorem giveUp_files (c : Content) (b : Option PageBytes)
    (h : ∀ g span dirty, c = .file g span dirty → b ≠ none →
      (dirty || m.hasFlag id .dirty) = false) :
    Ends (giveUp id c b) m (fun _ t => t.files = m.files) (fun _ _ => True) := by
  cases c with
  | unloaded => rfl
  | anon slot =>
      have hfree : Ends (slot.forM freeSlot) m (fun _ t => t.files = m.files)
          (fun _ _ => True) := by
        cases slot with
        | none => rfl
        | some k => exact freeSlot_files k
      simp only [giveUp, ends_bind]
      refine hfree.mono (fun _ t ht => ?_) fun _ _ h => h
      split <;> exact ht
  | file g span dirty =>
      cases b with
      | none => rfl
      | some b =>
          simp only [giveUp, writeBack, ends_bind, ends_handle, ends_get, ends_modify,
            h g span dirty rfl (by simp), Bool.false_eq_true, if_false, ends_pure]
          rfl

theorem destroy_files (hpage : m.layout.page id = some page) (hn : m.layout.pending? id = none) :
    Ends (destroy id page) (m.erasePage id) (fun _ t => t.files = m.files) (fun _ _ => True) := by
  cases hf : page.frame? with
  | none =>
      simp only [destroy, hf]
      exact giveUp_files _ _ (by simp)
  | some f =>
      simp only [destroy, hf, frame, ends_bind, ends_get, ends_ofOption, implies_true, and_true]
      intro fr hfr
      refine (readFrame_same fr.page).mono ?_ fun _ _ h => h
      rintro b _ rfl
      refine (giveUp_files page.content (some b) fun g span dirty hc _ => ?_).mono
        (fun _ t ht => ht) fun _ _ h => h
      have hp : m.layout.phys? f = some fr.page := by
        rw [Layout.phys?, FrameTable.phys?, show m.layout.frames.get? f = some fr from hfr,
          Option.map_some]
      have hd : (m.erasePage id).hasFlag id .dirty = m.layout.hardDirty id := by
        rw [hasFlag_layout, layout_erasePage, Layout.hardDirty]
      rw [hd, Bool.eq_false_iff]
      intro hdirty
      have hpend := Layout.pending?_of_hold? (Layout.hold?_file ⟨hpage, hf, hp⟩ hc) hdirty
      rw [hn] at hpend
      cases hpend

theorem removePage_files (hn : m.layout.pending? id = none) :
    Ends (removePage id) m (fun _ t => t.files = m.files) (fun _ _ => True) := by
  simp only [removePage, ends_bind, ends_get]
  cases hpage : m.page? id with
  | none => rfl
  | some page =>
      simp only [ends_bind, ends_modify, ends_pure]
      exact destroy_files hpage hn

theorem removeAll_files (hs : m.layout.Sound) (hu : m.layout.Unpinned) (hv : l.Vacant s)
    (h : Layout.Saves l m.layout) :
    Ends (removeAll s vs) m (fun _ t => t.files = m.files) (fun _ _ => True) := by
  induction vs generalizing m with
  | nil => rfl
  | cons v vs ih =>
      simp only [removeAll, ends_bind, ends_discard]
      apply ((removePage_ends hs hu).and (removePage_files (h.pending_none (hv v)))).mono
      swap
      · exact fun _ _ h => h.2
      rintro _ t ⟨⟨cs, hcs, hw, -⟩, hfiles⟩
      have hsaves : Layout.Saves l t.layout := by
        refine h.of_course hs hw.course fun c hc => ?_
        rw [hcs c hc]
        exact ⟨.inr trivial, hv v⟩
      rw [← hfiles]
      exact ih (hs.of_course hw.course) hw.unpinned hsaves

theorem dropInOrder_files (hs : m.layout.Sound) (hu : m.layout.Unpinned) (hv : l.Vacant s)
    (h : Layout.Saves l m.layout) :
    Ends (do killInOrder s order; modify (setSpace s default) : Step Machine Unit) m
      (fun _ t => t.files = m.files) (fun _ _ => True) := by
  simp only [killInOrder, ends_bind, ends_get]
  refine (removeAll_files hs hu hv h).mono ?_ fun _ _ h => h
  intro _ t ht
  split <;> exact ht

/-- A space that was made in part is given up without a trace, and without
writing to a file. -/
theorem dropInOrder_traceless {parent : SpaceId} (hs : m.layout.Sound) (hf : m.layout.Fitting)
    (hv : m.layout.Vacant child) (h : m.layout.Adds parent child vs cs u.layout)
    (ho : order.Perm (u.pages child).keys) :
    Ends (do killInOrder child order; modify (setSpace child default) : Step Machine Unit) u
      (fun _ t => t.files = u.files ∧ m.Traceless child t) (fun _ _ => False) := by
  have hu := hs.of_course h.course.course
  have hsaves : Layout.Saves m.layout u.layout :=
    (Layout.Saves.refl hf).of_course hs h.course.course fun c hc =>
      ⟨.inl (h.makes c hc), (h.new c hc).2.2⟩
  refine ((dropInOrder_undoes hs h ho).and
    (dropInOrder_files hu h.course.unpinned hv hsaves)).mono ?_ fun _ _ h => h.1
  rintro _ t ⟨⟨ds, hd⟩, hfiles⟩
  exact ⟨hfiles, traceless_of_undoes hs hf hv hd⟩

theorem forkInOrder_traceless {parent : SpaceId} (hs : m.layout.Sound) (hu : m.layout.Unpinned)
    (hf : m.layout.Fitting) (hne : parent ≠ child) (hvs : vs.Nodup) (hv : m.layout.Vacant child)
    (refusals : Trap) :
    Ends (forkInOrder parent child refusals vs) m (fun _ _ => True)
      (fun e t => m.Traceless child t ∧
        ∃ u, copyInOrder parent child vs (m.create child refusals) = .error e u ∧
          t.files = u.files ∧
          m.Dissolves child u) := by
  have hl := layout_create hs hv refusals
  simp only [forkInOrder, ends_bind, ends_modify, ends_onFailure]
  have h := (copyInOrder_ends (m := m.create child refusals) (by rw [hl]; exact hs)
    (by rw [hl]; exact hu) hne hvs).and (ends_self _ _)
  rw [hl] at h
  refine h.mono (fun _ _ _ => trivial) ?_
  rintro e u ⟨⟨-, cs, h⟩, hx⟩
  have hdrop (order : List VirtPage) (ho : order.Perm (u.pages child).keys) :=
    dropInOrder_traceless hs hf hv h ho
  refine (ends_drop.mpr (hdrop _ (.refl _))).mono ?_ fun _ _ h => h.elim
  intro _ t ht
  refine ⟨ht.2, u, hx, ht.1, fun order ho => ?_⟩
  cases hk : (do killInOrder child order; modify (setSpace child default) : Step Machine Unit)
      u with
  | ok _ k => exact ⟨k, rfl, (hdrop order ho).of_ok hk⟩
  | error e k => exact ((hdrop order ho).of_error hk).elim

end Machine

theorem Runs.fitting {m m' : Machine} {trail : List (Op × Report)} (h : Runs m trail m')
    (hs : m.layout.Sound) (hu : m.layout.Unpinned) (hf : m.layout.Fitting) :
    m'.layout.Fitting := by
  induction h with
  | nil => exact hf
  | cons ha _ ih =>
      obtain ⟨cs, hw, -⟩ := Op.goes_run hs hu ha
      exact ih (hs.of_course hw.course) hw.unpinned (hf.of_course hs hw.course)

theorem Reachable.fitting {m : Machine} (h : Reachable m) : m.layout.Fitting := by
  obtain ⟨m₀, trail, h₀, hr⟩ := h
  refine hr.fitting h₀.sound.1 h₀.sound.2 fun id x hx => ?_
  obtain ⟨config, n, disk, files, -, -, rfl⟩ := h₀
  rw [Layout.hold?_idle (by rw [Layout.home?, Machine.page_boot, Option.bind_none])] at hx
  cases hx

/-- A fork that fails, wherever it does, leaves nothing behind, and in whatever
order the pages copied so far are given up, no file is written. -/
theorem Reachable.fork_fails {m t : Machine} (h : Reachable m) {parent child : SpaceId}
    {refusals : Trap} {order : List VirtPage}
    (ha : (Op.fork parent child refusals order).Admissible m) {e : Failure}
    (hx : Machine.forkInOrder parent child refusals order m = .error e t) :
    m.Traceless child t ∧
      ∃ u, Machine.copyInOrder parent child order (m.create child refusals) = .error e u ∧
        t.files = u.files ∧ m.Dissolves child u := by
  obtain ⟨hs, hu⟩ := h.sound
  obtain ⟨hne, hv, ho⟩ := ha
  exact (Machine.forkInOrder_traceless hs hu h.fitting hne (Machine.nodup_of_perm_keys ho) hv
    refusals).of_error hx

theorem fork_fails_one_frame_no_swap :
    ∃ m e t, m = ((Op.write 0 ⟨8192⟩ [5] ⟨0⟩).run ((Op.alloc 0 .anon ⟨8192⟩ true none).run
        ((Op.alloc 0 .file ⟨4096⟩ true (some (.segment ⟨0, 0, 4, by decide⟩))).run
          (.boot {} (.ofCapacity 1) none [.ofList [7, 7, 7, 7]])).2).2).2 ∧
      Machine.forkInOrder 0 1 {} [⟨1⟩, ⟨2⟩] m = .error e t ∧ m.Traceless 1 t ∧
      ∃ u, Machine.copyInOrder 0 1 [⟨1⟩, ⟨2⟩] (m.create 1 {}) = .error e u ∧ t.files = u.files ∧
        m.Dissolves 1 u := by
  have h₀ : Starts (.boot {} (.ofCapacity 1) none [.ofList [7, 7, 7, 7]]) :=
    ⟨{}, 1, none, [.ofList [7, 7, 7, 7]], by decide, by simp, rfl⟩
  have hr : Runs (.boot {} (.ofCapacity 1) none [.ofList [7, 7, 7, 7]])
      [(.alloc 0 .file ⟨4096⟩ true (some (.segment ⟨0, 0, 4, by decide⟩)), _),
        (.alloc 0 .anon ⟨8192⟩ true none, _), (.write 0 ⟨8192⟩ [5] ⟨0⟩, _)] _ :=
    .cons trivial (.cons trivial (.cons trivial (.nil _)))
  have h : Reachable ((Op.write 0 ⟨8192⟩ [5] ⟨0⟩).run ((Op.alloc 0 .anon ⟨8192⟩ true none).run
      ((Op.alloc 0 .file ⟨4096⟩ true (some (.segment ⟨0, 0, 4, by decide⟩))).run
        (.boot {} (.ofCapacity 1) none [.ofList [7, 7, 7, 7]])).2).2).2 := ⟨_, _, h₀, hr⟩
  generalize hm : ((Op.write 0 ⟨8192⟩ [5] ⟨0⟩).run ((Op.alloc 0 .anon ⟨8192⟩ true none).run
      ((Op.alloc 0 .file ⟨4096⟩ true (some (.segment ⟨0, 0, 4, by decide⟩))).run
        (.boot {} (.ofCapacity 1) none [.ofList [7, 7, 7, 7]])).2).2).2 = m at h
  have hkeys : (m.pages 0).keys = [⟨1⟩, ⟨2⟩] := by rw [← hm]; decide +kernel
  have hchild : (m.pages 1).keys = [] := by rw [← hm]; decide +kernel
  have herr : (Machine.perform (Machine.forkInOrder 0 1 {} [⟨1⟩, ⟨2⟩]) m).1.failure =
      some (.errno .enomem) := by
    rw [← hm]
    decide +kernel
  obtain ⟨t, hx⟩ := Machine.exists_error_of_perform herr
  have ha : (Op.fork 0 1 {} [⟨1⟩, ⟨2⟩]).Admissible m :=
    ⟨by decide, Machine.page?_eq_none_of_keys hchild, by rw [hkeys]⟩
  exact ⟨m, _, t, rfl, hx, Reachable.fork_fails h ha hx⟩

end Pager
