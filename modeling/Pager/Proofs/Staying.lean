import Pager.Proofs.Evolving
import Pager.Proofs.Verdicts

namespace Pager

open Step

namespace Layout

variable {l l' l'' : Layout} {id o : PageId} {f : FrameId} {p : PhysPage} {q : Page}

/-- A page has come into no frame: it is as it was, unless it has left its frame. -/
structure Stays (id : PageId) (l l' : Layout) : Prop where
  idle : l.home? id = none → l'.page id = l.page id
  frame : ∀ f, l'.home? id = some f → l.home? id = some f ∧ l'.phys? f = l.phys? f ∧
    ∀ p, l.phys? f = some p → l'.bytes p = l.bytes p

namespace Stays

theorem of_page (hpage : l'.page id = l.page id)
    (hphys : ∀ f, l.home? id = some f → l'.phys? f = l.phys? f)
    (hb : ∀ f p, l.home? id = some f → l.phys? f = some p → l'.bytes p = l.bytes p) :
    Stays id l l' := by
  refine ⟨fun _ => hpage, fun f hf => ?_⟩
  have hhome : l.home? id = some f := by rwa [home?, ← hpage]
  exact ⟨hhome, hphys f hhome, fun p hp => hb f p hhome hp⟩

theorem refl (id : PageId) (l : Layout) : Stays id l l :=
  of_page rfl (fun _ _ => rfl) fun _ _ _ _ => rfl

theorem trans (h : Stays id l l') (h' : Stays id l' l'') : Stays id l l'' := by
  refine ⟨fun hid => ?_, fun f hf => ?_⟩
  · have hpage := h.idle hid
    have hid' : l'.home? id = none := by rwa [home?, hpage]
    rw [h'.idle hid', hpage]
  · obtain ⟨hf', hphys', hb'⟩ := h'.frame f hf
    obtain ⟨hf'', hphys, hb⟩ := h.frame f hf'
    refine ⟨hf'', hphys'.trans hphys, fun p hp => ?_⟩
    rw [hb' p (hphys.trans hp), hb p hp]

theorem of_eq (hpage : l'.page = l.page) (hphys : l'.phys? = l.phys?) (hb : l'.bytes = l.bytes) :
    Stays id l l' :=
  of_page (congrFun hpage id) (fun f _ => congrFun hphys f) fun _ p _ _ => congrFun hb p

theorem of_update (ho : l.home? o = some f)
    (hpage : l'.page = Function.update l.page o (some q)) (hq : ∀ k, q.frame? = some k → k = f)
    (hphys : l'.phys? = l.phys?) (hb : l'.bytes = l.bytes) : Stays id l l' := by
  by_cases hid : id = o
  · subst hid
    refine ⟨fun hn => ?_, fun k hk => ?_⟩
    · rw [ho] at hn
      cases hn
    · rw [home?, hpage, Function.update_self] at hk
      obtain rfl := hq k hk
      exact ⟨ho, congrFun hphys k, fun p _ => congrFun hb p⟩
  · exact of_page (by rw [hpage, Function.update_of_ne hid]) (fun k _ => congrFun hphys k)
      fun _ p _ _ => congrFun hb p

theorem of_bytes (hs : l.Sound) (hp : l.phys? f = some p) (hid : l.home? id ≠ some f)
    (hpage : l'.page = l.page) (hphys : l'.phys? = l.phys?)
    (hb : ∀ r ≠ p, l'.bytes r = l.bytes r) : Stays id l l' := by
  refine of_page (congrFun hpage id) (fun k _ => congrFun hphys k) fun k r hk hr => hb r ?_
  rintro rfl
  exact hid (hs.phys?_inj hr hp ▸ hk)

theorem of_register (h : l.ChangeStep (.register o q) l') (hid : id ≠ o) : Stays id l l' := by
  cases h with
  | register => exact .of_page (Function.update_of_ne hid ..) (fun _ _ => rfl) fun _ _ _ _ => rfl

end Stays

theorem Sweeps.stays (h : l.Sweeps l') : Stays id l l' := by
  obtain ⟨entry, hand, -, -, rfl⟩ := h
  exact .of_eq rfl rfl rfl

theorem Leaves.stays (h : l.Leaves o f p l') : Stays id l l' := by
  obtain ⟨page, hin⟩ := h.inFrame
  have hphys : l'.phys? = l.phys? := by
    funext g
    rw [phys?, h.frames, FrameTable.phys?_unbind]
    rfl
  cases h with
  | anon | file => exact .of_update hin.home?_eq rfl (by simp) hphys rfl

theorem Lingers.stays (h : l.Lingers o f p l') : Stays id l l' := by
  obtain ⟨page, hin⟩ := h.inFrame
  cases h with
  | full => exact .refl id l
  | anon => exact .of_eq rfl rfl rfl
  | file page g span dirty k hpage hf =>
      exact .of_update hin.home?_eq rfl (fun _ hk => Option.some.inj (hk.symm.trans hf)) rfl rfl

theorem Obtains.stays {v : Option PageId} (h : l.Obtains f p v l') (hs : l.Sound) :
    Stays id l l' := by
  cases h with
  | grow ps hfree hf =>
      refine .of_page rfl (fun k hk => ?_) fun _ _ _ _ => rfl
      obtain ⟨q, hq⟩ := hs.exists_phys? hk
      exact (phys?_grow hq).trans hq.symm
  | reuse l₁ hsw hf => exact hsw.stays.trans (.of_eq rfl FrameTable.phys?_pin rfl)
  | evict l₁ l₂ o hsw hl =>
      exact hsw.stays.trans (hl.stays.trans (.of_eq rfl FrameTable.phys?_pin rfl))

theorem Lacks.stays {v : Option PageId} (h : l.Lacks v l') : Stays id l l' := by
  cases h with
  | empty => exact .refl id l
  | stuck l₁ l₂ o f p hsw hl => exact hsw.stays.trans hl.stays

end Layout

namespace Machine

open Layout

variable {m : Machine} {id o : PageId} {page : Page} {f : FrameId} {p : PhysPage} {l : Layout}

theorem acquireFrame_stays (hs : m.layout.Sound) (hu : m.layout.Unpinned) :
    Ends acquireFrame m (fun _ t => Stays id m.layout t.layout)
      (fun _ t => Stays id m.layout t.layout) := by
  refine (acquireFrame_obtains hs hu).mono ?_ fun _ _ h => h.2.elim fun _ h => h.stays
  rintro ⟨f, p⟩ t ⟨v, l₁, h, hl⟩
  have hs₁ := hs.of_rearranged (h.acquired hu).reach
  have hf := (h.acquired hu).spare
  rw [hl]
  exact (h.stays hs).trans (.of_bytes hs₁ hf.1
    (fun hid => Layout.home?_ne_spare hs₁ hf hid rfl) rfl rfl
    fun _ hr => Function.update_of_ne hr ..)

end Machine

namespace Layout

variable {l l' l'' : Layout} {id o : PageId} {f : FrameId} {p : PhysPage} {page q : Page}

structure WrittenAt (l : Layout) (p : PhysPage) (l' : Layout) : Prop where
  page : l'.page = l.page
  frames : l'.frames = l.frames
  bytes : ∀ r ≠ p, l'.bytes r = l.bytes r

theorem WrittenAt.refl (l : Layout) (p : PhysPage) : l.WrittenAt p l :=
  ⟨rfl, rfl, fun _ _ => rfl⟩

theorem Loaded.writtenAt {loader : Option Loader} (h : l.Loaded p loader l') :
    l.WrittenAt p l' := by
  obtain ⟨b, runs, -, -, rfl⟩ := h
  exact ⟨rfl, rfl, fun r hr => Function.update_of_ne hr ..⟩

theorem Scribbled.writtenAt (h : l.Scribbled p l') : l.WrittenAt p l' := by
  obtain ⟨b, runs, -, rfl⟩ := h
  exact ⟨rfl, rfl, fun r hr => Function.update_of_ne hr ..⟩

theorem Sound.touched (h : l.Sound) (o : PageId) (write : Bool) :
    Sound (Machine.touched l o write) := by
  refine h.withEntry fun k e he => ?_
  by_cases hk : k = o
  · subst hk
    rw [Function.update_self] at he
    obtain ⟨e', he', rfl⟩ := Option.map_eq_some_iff.mp he
    have hmaps := (h.entries k e' he').set (k := .accessed) (by decide) true
    cases write with
    | false => exact hmaps
    | true => exact hmaps.set (by decide) true
  · rw [Function.update_of_ne hk] at he
    exact h.entries k e he

theorem Opens.target {s : SpaceId} {a sp : VirtAddr} {w : World} {cs : List Change}
    (h : l.Opens s a sp w cs) : ∀ c ∈ cs, c.target = ⟨s, a.page⟩ := by
  cases h with
  | there page cs hpage h => exact fun c hc => (h.fills c hc).target
  | grown cs hpage hg h =>
      intro c hc
      rcases List.mem_cons.mp hc with rfl | hc
      · rfl
      · exact (h.fills c hc).target

theorem Balks.target {s : SpaceId} {a sp : VirtAddr} {cs : List Change} (h : l.Balks s a sp cs) :
    ∀ c ∈ cs, c.target = ⟨s, a.page⟩ := by
  cases h with
  | same => simp
  | grown =>
      intro c hc
      rw [List.mem_singleton.mp hc]
      rfl

theorem exists_verdict {s : SpaceId} {a : VirtAddr} (hpage : l.page ⟨s, a.page⟩ = some page)
    (hw : page.writable = false) : ∃ e, l.verdict s a true = some e := by
  have hr : l.refuses s a true = true := refuses_eq_true.mpr ⟨rfl, page, hpage, hw⟩
  rw [verdict, hr]
  split
  · exact ⟨.eacces, rfl⟩
  · exact ⟨.efault, rfl⟩

end Layout

namespace Machine

open Layout

variable {m : Machine} {id o : PageId} {page : Page} {f : FrameId} {p : PhysPage} {l : Layout}
  {s : SpaceId} {a sp : VirtAddr} {flags : FaultFlags}

theorem fetch_writtenAt (hs : l.Sound) (hpage : l.page o = some page) (hn : page.frame? = none)
    (hf : l.Spare f p) (hz : l.bytes p = Bytes.zero pageSize)
    (hm : m.layout = { l with
      entry := Function.update l.entry o (some (.fresh p page.writable)) }) :
    Ends (fetch o page.content p) m (fun _ t => m.layout.WrittenAt p t.layout)
      (fun _ t => m.layout.WrittenAt p t.layout) := by
  have hr : Ram.InRange m.layout.capacity p := by
    rw [hm]
    exact hs.inRange hf.1
  have hzm : m.layout.bytes p = Bytes.zero pageSize := by rw [hm]; exact hz
  have hread {m : Machine} (hr : Ram.InRange m.layout.capacity p) (g : Segment) :
      Ends (inFrame p (loadSegment g)) m (fun _ t => m.layout.WrittenAt p t.layout)
        (fun _ t => m.layout.WrittenAt p t.layout) := by
    refine (readInto_ends hr g).mono ?_ fun e t h => h.2.writtenAt
    intro _ t h
    rw [h.2]
    exact ⟨rfl, rfl, fun r hr => Function.update_of_ne hr ..⟩
  cases hc : page.content with
  | unloaded kind loader span =>
      cases kind with
      | anon =>
          simp only [fetch, ends_bind, ends_note, ends_pure]
          refine (wipe_ends hr hzm).mono ?_ fun _ _ h => h.elim
          intro _ t₀ h₀
          rw [← h₀] at hr hzm ⊢
          refine (loadInto_ends hr hzm loader).mono ?_ fun e t h => h.2.writtenAt
          intro _ t h
          rw [layout_emit _ rfl]
          exact h.writtenAt
      | file =>
          simp only [fetch]
          cases loader.bind Loader.backing? with
          | none => exact .refl _ _
          | some g =>
              simp only [ends_bind, ends_note, ends_pure]
              refine (wipe_ends hr hzm).mono ?_ fun _ _ h => h.elim
              intro _ t₀ h₀
              rw [← h₀] at hr ⊢
              refine (hread hr g).mono ?_ fun e t h => h
              intro _ t h
              rw [layout_emit _ rfl]
              exact h
  | anon slot =>
      obtain ⟨k, rfl⟩ := (hs.coherent hpage).slot_of_idle hn hc
      have hslot : l.slot? o = some k := by simp [Layout.slot?, hpage, Page.slot?, hc]
      have hused := hs.test_slot hslot
      have haddr := hs.addressable (Swap.Bitmap.lt_of_test hused)
      have hcount := hs.bitmap.used_pos hused
      simp only [fetch, ends_bind, ends_note, ends_pure]
      refine (takeBackInto_ends hr haddr (by rw [hm]; exact hused)
        (by rw [hm]; exact hcount)).mono ?_ fun e t h => h.2.writtenAt
      intro _ t h
      rw [layout_emit _ rfl, h]
      exact ⟨rfl, rfl, fun r hr => Function.update_of_ne hr ..⟩
  | file g span dirty =>
      simp only [fetch, ends_bind, ends_pure]
      exact hread hr g

theorem occupy_stays (hs : m.layout.Sound) (hu : m.layout.Unpinned)
    (hpage : m.layout.page o = some page) (hn : page.frame? = none) (hid : id ≠ o) :
    Ends (occupy o page) m (fun _ t => Stays id m.layout t.layout)
      (fun _ t => Stays id m.layout t.layout) := by
  rw [occupy, ends_bind]
  refine ((acquireFrame_ends hs hu).and (acquireFrame_stays hs hu)).mono ?_ fun _ _ h => h.2
  rintro ⟨f, p⟩ t ⟨⟨ha, hz⟩, hstay⟩
  have hs₁ := hs.of_rearranged ha.reach
  have ho : m.layout.home? o = none := by rw [Layout.home?, hpage, Option.bind_some, hn]
  have hpage₁ : t.layout.page o = some page := (ha.idle.idle o ho).trans hpage
  have ho₁ : t.layout.home? o = none := by rw [Layout.home?, hpage₁, Option.bind_some, hn]
  have hother {l₁ l₂ : Layout} (h : l₁.WrittenAt p l₂) (hl : l₁.page = t.layout.page)
      (hf : l₁.frames = t.layout.frames) (hb : l₁.bytes = t.layout.bytes) {l' : Layout}
      (hp : l'.page id = l₂.page id) (hph : l'.phys? = l₂.phys?) (hb' : l'.bytes = l₂.bytes) :
      Stays id m.layout l' := by
    have hphys : l₂.phys? = t.layout.phys? := by
      funext g
      change l₂.frames.phys? g = _
      rw [h.frames, hf]
      rfl
    refine hstay.trans ((Stays.of_bytes hs₁ ha.spare.1
      (fun hf => Layout.home?_ne_spare hs₁ ha.spare hf rfl) (h.page.trans hl) hphys
      fun r hr => (h.bytes r hr).trans (congrFun hb r)).trans ?_)
    exact .of_page hp (fun k _ => congrFun hph k) fun k r _ _ => congrFun hb' r
  simp only [ends_bind, ends_onFailure, ends_modify, ends_note, ends_pure, ends_demandIdle ho₁]
  apply (install_ends page.writable).mono
  · intro _ t₂ hl₂
    apply (fetch_writtenAt hs₁ hpage₁ hn ha.spare hz hl₂).mono
    · intro c t₃ h
      rw [layout_emit _ rfl, layout_onFrames, layout_setPage]
      refine hother h (by rw [hl₂]) (by rw [hl₂]) (by rw [hl₂]) ?_ ?_ rfl
      · exact Function.update_of_ne hid ..
      · exact funext fun g => congrFun FrameTable.phys?_bind g
    · intro e t₃ h
      rw [layout_onFrames, layout_unmapPage]
      refine hother h (by rw [hl₂]) (by rw [hl₂]) (by rw [hl₂]) rfl ?_ rfl
      exact funext fun g =>
        (congrFun FrameTable.phys?_unpin g).trans (congrFun FrameTable.phys?_unbind g)
  · intro e t₂ h
    rw [layout_onFrames, layout_unmapPage]
    refine hother (.refl t₂.layout p) (by rw [h.2]) (by rw [h.2]) (by rw [h.2]) rfl ?_ rfl
    exact funext fun g =>
      (congrFun FrameTable.phys?_unpin g).trans (congrFun FrameTable.phys?_unbind g)

theorem claimPage_stays (hs : m.layout.Sound) (hu : m.layout.Unpinned)
    (hpage : m.layout.page o = some page) (hid : id ≠ o) :
    Ends (claimPage o page) m (fun _ t => Stays id m.layout t.layout)
      (fun _ t => Stays id m.layout t.layout) := by
  rw [claimPage]
  cases hf : page.frame? with
  | none =>
      simp only [ends_bind, ends_modify]
      refine (occupy_stays hs hu hpage hf hid).mono ?_ fun _ _ h => h
      intro r t h
      rw [layout_onFrames]
      exact h.trans (.of_eq rfl (funext fun g => congrFun FrameTable.phys?_unpin g) rfl)
  | some f =>
      have hhome : m.layout.home? o = some f := by rw [Layout.home?, hpage, Option.bind_some, hf]
      obtain ⟨fr, hfr, -⟩ := Option.bind_eq_some_iff.mp ((hs.owners f o).mpr hhome)
      simp only [ends_bind]
      rw [ends_frame hfr]
      apply (install_ends page.writable).mono
      · intro _ t hl
        rw [hl]
        exact .of_eq rfl rfl rfl
      · intro e t h
        rw [h.2]
        exact .refl id m.layout

theorem claim_stays (hs : m.layout.Sound) (hu : m.layout.Unpinned) (hid : id ≠ ⟨s, a.page⟩) :
    Ends (claim s a) m (fun _ t => Stays id m.layout t.layout)
      (fun _ t => Stays id m.layout t.layout) := by
  simp only [claim, ends_bind, ends_get]
  have hfind : m.find? s a = m.layout.page ⟨s, a.page⟩ := rfl
  rw [hfind]
  cases hpage : m.layout.page ⟨s, a.page⟩ with
  | none => exact .refl id m.layout
  | some page => exact claimPage_stays hs hu hpage hid

theorem stack_stays (hs : m.layout.Sound) (hu : m.layout.Unpinned) (hid : id ≠ ⟨s, a.page⟩) :
    Ends (do alloc s .anon a true none; claim s a : Step Machine Unit) m
      (fun _ t => Stays id m.layout t.layout) (fun _ t => Stays id m.layout t.layout) := by
  simp only [alloc, ends_bind]
  apply (register_ends rfl (Layout.wellFormed_unloaded ..)).mono
  · intro _ t hr
    have hst := hs.of_step hr
    obtain ⟨-, -, -, hpin⟩ := hr.of_register
    have hstay := Stays.of_register hr hid
    exact (claim_stays hst (hpin hu) hid).mono (fun _ _ h => hstay.trans h)
      fun _ _ h => hstay.trans h
  · intro e t h
    rw [h.2]
    exact .refl id m.layout

theorem growStack_stays (hs : m.layout.Sound) (hu : m.layout.Unpinned) (hid : id ≠ ⟨s, a.page⟩) :
    Ends (growStack s a) m (fun _ t => Stays id m.layout t.layout)
      (fun _ t => Stays id m.layout t.layout) := by
  have hl : (m.emit (.stackGrown a.page.start)).layout = m.layout := layout_emit m rfl
  have hid' : id ≠ ⟨s, a.page.start.page⟩ := by rwa [page_start_page]
  have h := stack_stays (m := m.emit (.stackGrown a.page.start)) (by rw [hl]; exact hs)
    (by rw [hl]; exact hu) hid'
  rw [hl] at h
  exact h

theorem handleFault_stays (hs : m.layout.Sound) (hu : m.layout.Unpinned)
    (hid : id ≠ ⟨s, a.page⟩) :
    Ends (handleFault s a flags sp) m (fun _ t => Stays id m.layout t.layout)
      (fun _ t => Stays id m.layout t.layout) := by
  have hl : (m.emit (.fault a flags)).layout = m.layout := layout_emit m rfl
  have hfail {t : Machine} (ht : t.layout = m.layout) : Stays id m.layout t.layout := by
    rw [ht]
    exact .refl id m.layout
  simp only [handleFault, ends_bind, ends_note, ends_get, ends_requireOr]
  refine ⟨fun _ => ⟨fun _ => ?_, fun _ => hfail ((layout_emit _ rfl).trans hl)⟩,
    fun _ => hfail ((layout_emit _ rfl).trans hl)⟩
  have hfind : (m.emit (.fault a flags)).find? s a = m.layout.page ⟨s, a.page⟩ := rfl
  rw [hfind]
  cases hpage : m.layout.page ⟨s, a.page⟩ with
  | none =>
      simp only [ends_bind, ends_requireOr]
      refine ⟨fun _ => ?_, fun _ => hfail ((layout_emit _ rfl).trans hl)⟩
      have h := growStack_stays (m := m.emit (.fault a flags)) (by rw [hl]; exact hs)
        (by rw [hl]; exact hu) hid
      rwa [hl] at h
  | some page =>
      simp only [ends_bind, ends_requireOr]
      refine ⟨fun _ => ?_, fun _ => hfail ((layout_emit _ rfl).trans hl)⟩
      have h := claimPage_stays (m := m.emit (.fault a flags)) (by rw [hl]; exact hs)
        (by rw [hl]; exact hu) (by rw [hl]; exact hpage) hid
      rwa [hl] at h

theorem touch_stays (hid : id ≠ ⟨s, a.page⟩) (write : Bool) (n : Nat) {m : Machine}
    (hs : m.layout.Sound) (hu : m.layout.Unpinned) :
    Ends (touch s a write sp n) m (fun _ t => Stays id m.layout t.layout)
      (fun _ t => Stays id m.layout t.layout) := by
  induction n generalizing m with
  | zero => exact .refl id m.layout
  | succ n ih =>
      have hfault (flags : FaultFlags) :
          Ends (handleFault s a flags sp) m
            (fun _ t => Ends (touch s a write sp n) t (fun _ t => Stays id m.layout t.layout)
              (fun _ t => Stays id m.layout t.layout))
            (fun _ t => Stays id m.layout t.layout) := by
        refine ((handleFault_ends hs hu).and (handleFault_stays hs hu hid)).mono ?_ fun _ _ h => h.2
        rintro _ t ⟨⟨-, cs, -, hw, -⟩, hstay⟩
        exact (ih (hs.of_course hw.course) hw.unpinned).mono (fun _ _ h => hstay.trans h)
          fun _ _ h => hstay.trans h
      rw [touch]
      simp only [ends_bind, ends_get]
      cases (m.table s).translate a.page with
      | none =>
          rw [ends_bind]
          exact hfault _
      | some p =>
          simp only
          split
          · rw [ends_bind, ends_modify, ends_pure, layout_mark]
            exact .of_eq rfl rfl rfl
          · rw [ends_bind]
            exact hfault _

theorem writePiece_stays (hs : m.layout.Sound) (hu : m.layout.Unpinned) (hid : id ≠ ⟨s, a.page⟩)
    (bs : List UInt8) :
    Ends (writePiece s a sp bs) m (fun _ t => Stays id m.layout t.layout)
      (fun _ t => Stays id m.layout t.layout) := by
  simp only [writePiece, ends_bind]
  refine ((touch_ends hs hu true 0).and (touch_stays hid true retries hs hu)).mono ?_
    fun _ _ h => h.2
  rintro p t ⟨⟨cs, l, -, hw, page, f, hmap, -, hl⟩, hstay⟩
  have hst : t.layout.Sound := by
    rw [hl]
    exact (hs.of_course hw.course).touched _ _
  have hin : t.layout.InFrame ⟨s, a.page⟩ page f p := by
    rw [hl]
    exact hmap.1
  have hr : Ram.InRange t.ram.capacity p := hst.inRange hin.2.2
  rw [ends_readFrame hr, ends_writeFrame hr, layout_store t hr]
  refine hstay.trans (.of_bytes hst hin.2.2 (fun hf => ?_) rfl rfl
    fun _ hr => Function.update_of_ne hr ..)
  exact Layout.home?_ne_of_ne hst hin.home?_eq hid hf rfl

theorem writeFrom_around {R : Layout → Layout → Prop} {page : Page} (refl : ∀ l, R l l)
    (trans : ∀ {l₁ l₂ l₃}, R l₁ l₂ → R l₂ l₃ → R l₁ l₃)
    (piece : ∀ {m : Machine} {cur : VirtAddr} (bs : List UInt8), m.layout.Sound →
      m.layout.Unpinned → id ≠ ⟨s, cur.page⟩ →
      Ends (writePiece s cur sp bs) m (fun _ t => R m.layout t.layout)
        (fun _ t => R m.layout t.layout))
    (hs : m.layout.Sound) (hu : m.layout.Unpinned) (hpage : m.layout.page id = some page)
    (hw : page.writable = false) (k : Nat) (data : List UInt8) :
    Ends (writeFrom s a sp k data) m (fun _ t => R m.layout t.layout)
      (fun _ t => R m.layout t.layout) := by
  have hdenied {m : Machine} {cur : VirtAddr} {page : Page} (hs : m.layout.Sound)
      (hpage : m.layout.page id = some page) (hw : page.writable = false)
      (hid : id = ⟨s, cur.page⟩) (bs : List UInt8) :
      Ends (writePiece s cur sp bs) m (fun _ _ => False) (fun _ t => t.layout = m.layout) := by
    obtain ⟨e, he⟩ := Layout.exists_verdict (hid ▸ hpage) hw
    exact (writePiece_denied hs he bs).mono (fun _ _ h => h) fun _ _ h => h.2
  fun_induction writeTrail s a sp k data m generalizing page with
  | case1 =>
      rw [writeFrom, dif_pos rfl]
      exact refl _
  | case2 k data m hd ha =>
      rw [writeFrom, dif_neg hd, ha]
      exact refl _
  | case3 k data m hd cur ha e t hx =>
      rw [writeFrom, dif_neg hd, ha, ends_bind, ends_of_error hx]
      by_cases hid : id = ⟨s, cur.page⟩
      · rw [(hdenied hs hpage hw hid _).of_error hx]
        exact refl _
      · exact (piece _ hs hu hid).of_error hx
  | case4 k data m hd cur ha u t hx ih =>
      rw [writeFrom, dif_neg hd, ha, ends_bind, ends_of_ok hx]
      have hid : id ≠ ⟨s, cur.page⟩ := fun hid => (hdenied hs hpage hw hid _).of_ok hx
      have hfirst := (piece _ hs hu hid).of_ok hx
      obtain ⟨cs, ho, hwent⟩ := (writePiece_ends hs hu _).of_ok hx
      obtain ⟨q, hq, hcont⟩ := continues_of_course hs hwent.course
        (ho.grows.store cur.offset _).lasting hpage
      apply (ih (hs.of_course hwent.course) hwent.unpinned hq (hcont.writable.trans hw)).mono
      · exact fun _ _ h => trans hfirst h
      · exact fun _ _ h => trans hfirst h

theorem writePiece_cell (hs : m.layout.Sound) (hu : m.layout.Unpinned) (hid : id ≠ ⟨s, a.page⟩)
    (bs : List UInt8) :
    Ends (writePiece s a sp bs) m (fun _ t => t.layout.cell id = m.layout.cell id)
      (fun _ t => t.layout.cell id = m.layout.cell id) := by
  refine (writePiece_ends hs hu bs).mono ?_ ?_
  · rintro _ t ⟨cs, ho, hw⟩
    refine Layout.cell_of_course_other hs hw.course fun c hc => ?_
    rcases List.mem_append.mp hc with hc | hc
    · rwa [ho.target c hc]
    · rwa [List.mem_singleton.mp hc]
  · rintro e t ⟨-, cs, hb, hw⟩
    exact Layout.cell_of_course_other hs hw.course fun c hc => by rwa [hb.target c hc]

/-- A page that may not be written comes into no frame while a program writes,
and private memory has the same bytes afterwards. -/
theorem writeFrom_stays (hs : m.layout.Sound) (hu : m.layout.Unpinned)
    (hpage : m.layout.page id = some page) (hw : page.writable = false) (k : Nat)
    (data : List UInt8) :
    Ends (writeFrom s a sp k data) m
      (fun _ t => Stays id m.layout t.layout ∧ t.layout.cell id = m.layout.cell id)
      (fun _ t => Stays id m.layout t.layout ∧ t.layout.cell id = m.layout.cell id) :=
  writeFrom_around (R := fun l l' => Stays id l l' ∧ l'.cell id = l.cell id)
    (fun l => ⟨.refl id l, rfl⟩) (fun h h' => ⟨h.1.trans h'.1, h'.2.trans h.2⟩)
    (fun bs hs hu hid => (writePiece_stays hs hu hid bs).and (writePiece_cell hs hu hid bs))
    hs hu hpage hw k data

end Machine

end Pager
