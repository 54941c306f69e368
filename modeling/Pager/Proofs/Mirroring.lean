import Pager.Proofs.Bystanders
import Pager.Proofs.Lifetimes

namespace Pager

open Step

namespace Layout

variable {l l' : Layout} {id o : PageId} {g : Segment} {d : Array UInt8} {f : FrameId}
  {p : PhysPage} {v : Option PageId} {c : Change} {cs : List Change}

/-- If a page is in a frame, it has there the bytes that its part of a file has
when the file is like this. -/
def Mirrors (l : Layout) (id : PageId) (g : Segment) (d : Array UInt8) : Prop :=
  ∀ f p, l.home? id = some f → l.phys? f = some p → l.bytes p = g.image d

theorem mirrors_of_idle (h : l.home? id = none) : l.Mirrors id g d := by
  intro f p hf
  rw [h] at hf
  cases hf

theorem Stays.mirrors (h : Stays id l l') (hm : l.Mirrors id g d) : l'.Mirrors id g d := by
  intro f p hf hp
  obtain ⟨hhome, hphys, hb⟩ := h.frame f hf
  have hp' := hphys.symm.trans hp
  rw [hb p hp']
  exact hm f p hhome hp'

theorem segment?_of_lasts (hm : l.Course cs l') (hcs : ∀ c ∈ cs, c.Lasting)
    (hg : l.segment? id = some g) : l'.segment? id = some g := by
  apply hm.preserves (P := fun k => k.segment? id = some g) hg
  · exact fun h hk => (congrFun (segment?_of_hidden h) id).trans hk
  · exact fun hc h hk => segment?_of_lasting h (hcs _ hc) hk

theorem segment?_of_spared (hm : l.Course cs l')
    (hcs : ∀ c ∈ cs, c.target = id → ∃ o, c = .destroy o) (hg : l.segment? id = some g)
    (hkeep : l'.page id ≠ none) : l'.segment? id = some g := by
  refine hm.preserves (P := fun k => k.page id ≠ none → k.segment? id = some g) (fun _ => hg)
    ?_ ?_ hkeep
  · intro a b hab h hne
    rw [segment?_of_hidden hab]
    refine h fun hnone => hne ?_
    have hrel := rel_of_hidden hab id
    rw [hnone] at hrel
    cases hb : b.page id with
    | none => rfl
    | some q =>
        rw [hb] at hrel
        cases hrel
  · intro a b c hc hab h hne
    by_cases ho : id = c.target
    · obtain ⟨o, rfl⟩ := hcs c hc ho.symm
      obtain rfl : id = o := ho
      exact absurd (by cases hab <;> exact Function.update_self ..) hne
    · have hp := page_of_step hab ho
      rw [hp] at hne
      rw [Layout.segment?, hp]
      exact h hne

end Layout

namespace Machine

open Layout

variable {m t : Machine} {id o : PageId} {page : Page} {g : Segment} {d : Array UInt8}
  {f : FrameId} {p : PhysPage} {s : SpaceId} {a sp : VirtAddr} {flags : FaultFlags}

theorem fetch_image (hg : page.segment? = some g) (hr : Ram.InRange m.layout.capacity p) :
    Ends (fetch o page.content p) m
      (fun _ t => t.layout.bytes p = g.image (t.layout.data g.file)) (fun _ _ => True) := by
  have hread {m : Machine} (hr : Ram.InRange m.layout.capacity p) :
      Ends (inFrame p (loadSegment g)) m
        (fun _ t => t.layout.bytes p = g.image (t.layout.data g.file)) (fun _ _ => True) := by
    refine (readInto_ends hr g).mono ?_ fun _ _ _ => trivial
    rintro _ t ⟨-, hl⟩
    rw [hl]
    exact Function.update_self ..
  cases hc : page.content with
  | unloaded kind loader span =>
      rw [Page.segment?, hc] at hg
      cases kind with
      | anon => cases hg
      | file =>
          have hg : loader.bind Loader.backing? = some g := hg
          simp only [fetch, hg, ends_bind, ends_note, ends_pure, ends_writeFrame hr]
          exact hread (by rwa [layout_store m hr])
  | anon => rw [Page.segment?, hc] at hg; cases hg
  | file g' span dirty =>
      obtain rfl : g' = g := by rw [Page.segment?, hc] at hg; exact Option.some.inj hg
      simp only [fetch, ends_bind, ends_pure]
      exact hread hr

theorem occupy_image (hs : m.layout.Sound) (hu : m.layout.Unpinned)
    (hpage : m.layout.page o = some page) (hg : page.segment? = some g) (hn : page.frame? = none) :
    Ends (occupy o page) m
      (fun r t => t.layout.bytes r.2 = g.image (t.layout.data g.file)) (fun _ _ => True) := by
  have ho : m.layout.home? o = none := by rw [Layout.home?, hpage, Option.bind_some, hn]
  rw [occupy, ends_bind]
  refine (acquireFrame_ends hs hu).mono ?_ fun _ _ _ => trivial
  rintro ⟨f, p⟩ t ⟨ha, -⟩
  have hs₁ := hs.of_rearranged ha.reach
  have ho₁ : t.layout.home? o = none := by
    rw [Layout.home?, (ha.idle.idle o ho).trans hpage, Option.bind_some, hn]
  simp only [ends_bind, ends_onFailure, ends_modify, ends_note, ends_pure, ends_demandIdle ho₁]
  refine (install_ends page.writable).mono ?_ fun _ _ _ => trivial
  intro _ t₂ hl₂
  have hr : Ram.InRange t₂.layout.capacity p := by
    rw [hl₂]
    exact hs₁.inRange ha.spare.1
  refine (fetch_image hg hr).mono ?_ fun _ _ _ => trivial
  intro c t₃ h
  rw [layout_emit _ rfl, layout_onFrames, layout_setPage]
  exact h

/-- If the page is brought in, its file is like this at the end, as long as the
page is to mirror it. An operation that fails has not brought it in. -/
def Renews (id : PageId) (g : Segment) (d : Array UInt8) {α : Type} (x : Step Machine α)
    (m : Machine) : Prop :=
  Ends x m (fun _ t => t.layout.data g.file = d → t.layout.Mirrors id g d)
    (fun _ t => t.layout.Mirrors id g d)

theorem claimPage_renews (hs : m.layout.Sound) (hu : m.layout.Unpinned)
    (hpage : m.layout.page o = some page) (hg : m.layout.segment? id = some g)
    (h : m.layout.Mirrors id g d) :
    Renews id g d (claimPage o page) m := by
  by_cases hid : id = o
  swap
  · exact (claimPage_stays hs hu hpage hid).mono (fun _ _ hst _ => hst.mirrors h)
      fun _ _ hst => hst.mirrors h
  subst hid
  have hpg : page.segment? = some g := by rwa [Layout.segment?, hpage, Option.bind_some] at hg
  have herror := (claimPage_ends hs hu hpage).mono (fun _ _ _ => trivial)
    fun _ _ h' => h'.2.elim fun _ hth => (hth.stays hs hu).mirrors h
  refine (Ends.and (Q := fun _ t => t.layout.data g.file = d → t.layout.Mirrors id g d)
    (E := fun _ _ => True) ?_ herror).mono (fun _ _ h => h.1) fun _ _ h => h.2
  rw [claimPage]
  cases hf : page.frame? with
  | none =>
      simp only [ends_bind, ends_modify]
      refine ((occupy_ends hs hu hpage hf).and (occupy_image hs hu hpage hpg hf)).mono ?_
        fun _ _ _ => trivial
      rintro ⟨f, p⟩ t ⟨⟨l₁, c, cs, ha, hb⟩, himage⟩ hd k q hk hq
      rw [layout_onFrames] at hk hq hd ⊢
      have hin := hb.inFrame ha.spare.1
      obtain rfl : f = k := Option.some.inj (hin.home?_eq.symm.trans hk)
      obtain rfl : p = q := Option.some.inj
        (hin.2.2.symm.trans ((congrFun FrameTable.phys?_unpin f).symm.trans hq))
      exact himage.trans (congrArg g.image hd)
  | some f =>
      have hhome : m.layout.home? id = some f := by rw [Layout.home?, hpage, Option.bind_some, hf]
      obtain ⟨fr, hfr, -⟩ := Option.bind_eq_some_iff.mp ((hs.owners f id).mpr hhome)
      simp only [ends_bind]
      rw [ends_frame hfr]
      refine (install_ends page.writable).mono ?_ fun _ _ _ => trivial
      intro _ t hl _
      rw [hl]
      exact h

theorem claim_renews (hs : m.layout.Sound) (hu : m.layout.Unpinned)
    (hg : m.layout.segment? id = some g) (h : m.layout.Mirrors id g d) :
    Renews id g d (claim s a) m := by
  simp only [Renews, claim, ends_bind, ends_get]
  rw [show m.find? s a = m.layout.page ⟨s, a.page⟩ from rfl]
  cases hpage : m.layout.page ⟨s, a.page⟩ with
  | none => exact h
  | some page => exact claimPage_renews hs hu hpage hg h

theorem handleFault_renews (hs : m.layout.Sound) (hu : m.layout.Unpinned)
    (hg : m.layout.segment? id = some g) (h : m.layout.Mirrors id g d) :
    Renews id g d (handleFault s a flags sp) m := by
  rw [← layout_emit m (e := .fault a flags) rfl] at hs hu hg h
  simp only [Renews, handleFault, ends_bind, ends_note, ends_get, ends_requireOr]
  refine ⟨fun _ => ⟨fun _ => ?_, fun _ => h⟩, fun _ => h⟩
  rw [show (m.emit (.fault a flags)).find? s a =
    (m.emit (.fault a flags)).layout.page ⟨s, a.page⟩ from rfl]
  cases hpage : (m.emit (.fault a flags)).layout.page ⟨s, a.page⟩ with
  | none =>
      simp only [ends_bind, ends_requireOr]
      refine ⟨fun _ => ?_, fun _ => h⟩
      have hid : id ≠ ⟨s, a.page⟩ := by
        rintro rfl
        rw [Layout.segment?, hpage] at hg
        cases hg
      exact (growStack_stays hs hu hid).mono (fun _ _ hst _ => hst.mirrors h)
        fun _ _ hst => hst.mirrors h
  | some page =>
      simp only [ends_bind, ends_requireOr]
      exact ⟨fun _ => claimPage_renews hs hu hpage hg h, fun _ => h⟩

theorem touch_renews (hs : m.layout.Sound) (hu : m.layout.Unpinned)
    (hg : m.layout.segment? id = some g) (h : m.layout.Mirrors id g d) (write : Bool) (n : Nat) :
    Renews id g d (touch s a write sp (n + 2)) m := by
  have hfault (flags : FaultFlags) (hflags : write = true → flags.contains .write = true) :
      Ends (handleFault s a flags sp) m
        (fun _ t => Renews id g d (touch s a write sp (n + 1)) t)
        (fun _ t => t.layout.Mirrors id g d) := by
    refine ((handleFault_ends hs hu).and (handleFault_renews hs hu hg h)).mono ?_ fun _ _ h => h.2
    rintro _ t ⟨⟨-, cs, -, -, page, f, p, hmap, hw⟩, hm⟩
    refine (touch_mapped hmap (fun hwrite => hw (hflags hwrite)) n).mono ?_ fun _ _ h => h
    rintro q t' ⟨-, hl⟩ hd
    rw [hl] at hd ⊢
    exact hm hd
  have hflags (present : Bool) (hw : write = true) :
      (faultFlags present write).contains .write = true := by
    rw [(contains_faultFlags present write).2, hw, Bool.or_true]
  rw [Renews, touch]
  simp only [ends_bind, ends_get]
  cases (m.table s).translate a.page with
  | none =>
      rw [ends_bind]
      exact hfault _ (hflags false)
  | some p =>
      dsimp only
      split
      · rw [ends_bind, ends_modify, ends_pure, layout_mark]
        exact fun _ => h
      · rw [ends_bind]
        refine hfault _ fun hw => ?_
        subst hw
        exact hflags true rfl

theorem readPiece_renews (hs : m.layout.Sound) (hu : m.layout.Unpinned)
    (hg : m.layout.segment? id = some g) (h : m.layout.Mirrors id g d) (n : Nat) :
    Renews id g d (readPiece s a sp n) m := by
  rw [Renews, readPiece, ends_bind]
  refine ((touch_ends hs hu false 0).and (touch_renews hs hu hg h false 0)).mono ?_ fun _ _ h => h.2
  rintro p t ⟨⟨cs, l, -, hw, page, f, hmap, -, hl⟩, hm⟩
  have hr := inRange_touched hs hw hmap hl
  rw [ends_bind, ends_readFrame hr, ends_pure]
  exact hm

theorem writePiece_mirrors (hs : m.layout.Sound) (hu : m.layout.Unpinned)
    (hg : m.layout.segment? id = some g) (h : m.layout.Mirrors id g d) (bs : List UInt8) :
    Ends (writePiece s a sp bs) m (fun _ t => id ≠ ⟨s, a.page⟩ → t.layout.Mirrors id g d)
      (fun _ t => t.layout.Mirrors id g d) := by
  by_cases hid : id = ⟨s, a.page⟩
  swap
  · exact (writePiece_stays hs hu hid bs).mono (fun _ _ hst _ => hst.mirrors h)
      fun _ _ hst => hst.mirrors h
  rw [writePiece, ends_bind]
  refine ((touch_ends hs hu true 0).and (touch_renews hs hu hg h true 0)).mono ?_ fun _ _ h => h.2
  rintro p t ⟨⟨cs, l, -, hw, page, f, hmap, -, hl⟩, -⟩
  have hr := inRange_touched hs hw hmap hl
  rw [ends_bind, ends_readFrame hr, ends_writeFrame hr]
  exact fun hne => absurd hid hne

theorem writeFrom_mirrors (hs : m.layout.Sound) (hu : m.layout.Unpinned)
    (hg : m.layout.segment? id = some g) (h : m.layout.Mirrors id g d) (k : Nat)
    (data : List UInt8) (hst : ∀ x ∈ writeTrail s a sp k data m, x.1.id ≠ id) :
    Ends (writeFrom s a sp k data) m (fun _ t => t.layout.Mirrors id g d)
      (fun _ t => t.layout.Mirrors id g d) := by
  fun_induction writeTrail s a sp k data m with
  | case1 =>
      rw [writeFrom, dif_pos rfl]
      exact h
  | case2 k data m hd ha =>
      rw [writeFrom, dif_neg hd, ha]
      exact h
  | case3 k data m hd cur ha e t hx =>
      rw [writeFrom, dif_neg hd, ha, ends_bind, ends_of_error hx]
      exact (writePiece_mirrors hs hu hg h _).of_error hx
  | case4 k data m hd cur ha u t hx ih =>
      rw [writeFrom, dif_neg hd, ha, ends_bind, ends_of_ok hx]
      obtain ⟨cs, ho, hw⟩ := (writePiece_ends hs hu _).of_ok hx
      have hne : id ≠ ⟨s, cur.page⟩ := (hst _ List.mem_cons_self).symm
      exact ih (hs.of_course hw.course) hw.unpinned
        (segment?_of_lasts hw.course (ho.grows.store cur.offset _).lasting hg)
        ((writePiece_mirrors hs hu hg h _).of_ok hx hne)
        fun x hx => hst x (List.mem_cons_of_mem _ hx)

theorem readFrom_mirrors (hs : m.layout.Sound) (hu : m.layout.Unpinned)
    (hg : m.layout.segment? id = some g) (h : m.layout.Mirrors id g d) (k len : Nat)
    (acc : List UInt8) (hfile : ∀ w ∈ readTrail s a sp k len m, w.data g.file = d) :
    Ends (readFrom s a sp k len) (m, acc) (fun _ t => t.1.layout.Mirrors id g d)
      (fun _ t => t.1.layout.Mirrors id g d) := by
  fun_induction readTrail s a sp k len m generalizing acc with
  | case1 =>
      rw [readFrom, dif_pos rfl]
      exact h
  | case2 k len m hd ha =>
      rw [readFrom, dif_neg hd, ha]
      exact h
  | case3 k len m hd cur ha e t hx =>
      rw [readFrom, dif_neg hd, ha, ends_bind, ends_zoom, ends_of_error hx]
      exact (readPiece_renews hs hu hg h _).of_error hx
  | case4 k len m hd cur ha bs t hx ih =>
      rw [readFrom, dif_neg hd, ha, ends_bind, ends_zoom, ends_of_ok hx, ends_bind, ends_modify]
      obtain ⟨cs, ho, hw, -⟩ := (readPiece_ends hs hu _).of_ok hx
      have hnow := hfile _ List.mem_cons_self
      exact ih (hs.of_course hw.course) hw.unpinned
        (segment?_of_lasts hw.course ho.grows.lasting hg)
        ((readPiece_renews hs hu hg h _).of_ok hx hnow) _
        fun w hw => hfile w (List.mem_cons_of_mem _ hw)

theorem worlds_performRead {len : Nat} :
    (performRead s a len sp m).1.worlds = readTrail s a sp 0 len m := by
  unfold performRead
  split <;> rfl

end Machine

/-- The operation stored nothing in the page, and whenever it could be told the
file was like this. -/
structure Report.LeavesAlone (r : Report) (id : PageId) (file : FileId) (d : Array UInt8) :
    Prop where
  stored : ∀ x ∈ r.stored, x.id ≠ id
  worlds : ∀ w ∈ r.worlds, w.data file = d

instance (r : Report) (id : PageId) (file : FileId) (d : Array UInt8) :
    Decidable (r.LeavesAlone id file d) :=
  decidable_of_iff ((∀ x ∈ r.stored, x.id ≠ id) ∧ ∀ w ∈ r.worlds, w.data file = d)
    ⟨fun h => ⟨h.1, h.2⟩, fun h => ⟨h.stored, h.worlds⟩⟩

namespace Op

open Layout Machine

variable {m : Machine} {op : Op} {id : PageId} {g : Segment} {d : Array UInt8}

theorem segment?_run (hs : m.layout.Sound) (hu : m.layout.Unpinned) (ha : op.Admissible m)
    (hg : m.layout.segment? id = some g) (hkeep : (op.run m).2.page? id ≠ none) :
    (op.run m).2.layout.segment? id = some g := by
  cases outcome_run hs hu ha with
  | lasting cs hc hlast => exact segment?_of_lasts hc hlast hg
  | gone cs hc hcs => exact segment?_of_spared hc (fun c hmem _ => hcs c hmem) hg hkeep
  | undone dst cs h =>
      have hdst : id.space ≠ dst := by
        rintro rfl
        exact hkeep (h.vacant id.page)
      exact segment?_of_spared h.course.course
        (fun c hmem ht => absurd (h.within c hmem) (ht ▸ hdst)) hg hkeep

theorem mirrors_perform {α : Type} {x : Step Machine α}
    (h : Ends x m
      (fun _ t => t.page? id ≠ none → t.layout.data g.file = d → t.layout.Mirrors id g d)
      (fun _ t => t.page? id ≠ none → t.layout.Mirrors id g d))
    (hkeep : (perform x m).2.page? id ≠ none) (hr : (perform x m).1.LeavesAlone id g.file d) :
    (perform x m).2.layout.Mirrors id g d := by
  have hQ := perform_ends
    (Q := fun r t => t.page? id ≠ none → r.LeavesAlone id g.file d → t.layout.Mirrors id g d)
    (h.mono (fun _ t h hne hr => h hne (hr.worlds _ List.mem_cons_self))
      fun _ t h hne _ => h hne)
  exact hQ hkeep hr

theorem performRead_mirrors {s : SpaceId} {a sp : VirtAddr} (hs : m.layout.Sound)
    (hu : m.layout.Unpinned) (hg : m.layout.segment? id = some g) (h : m.layout.Mirrors id g d)
    (len : Nat) (hr : (performRead s a len sp m).1.LeavesAlone id g.file d) :
    (performRead s a len sp m).2.layout.Mirrors id g d := by
  have hm := readFrom_mirrors hs hu hg h 0 len [] (worlds_performRead ▸ hr.worlds)
  unfold performRead readUser
  cases hx : readFrom s a sp 0 len (m, []) with
  | ok u t =>
      have hend := hm.of_ok hx
      exact hend
  | error e t =>
      have hend := hm.of_error hx
      exact hend

theorem performWrite_mirrors {s : SpaceId} {a sp : VirtAddr} (hs : m.layout.Sound)
    (hu : m.layout.Unpinned) (hg : m.layout.segment? id = some g) (h : m.layout.Mirrors id g d)
    (data : List UInt8) (hr : (performWrite s a data sp m).1.LeavesAlone id g.file d) :
    (performWrite s a data sp m).2.layout.Mirrors id g d := by
  have hm := writeFrom_mirrors hs hu hg h 0 data
    fun x hx => hr.stored x.1 (List.mem_map_of_mem hx)
  exact perform_ends (Q := fun _ t => t.layout.Mirrors id g d) hm

/-- A page of a file that no one writes to has the bytes of the file whenever it
is in a frame. -/
theorem mirrors_run (hs : m.layout.Sound) (hu : m.layout.Unpinned) (ha : op.Admissible m)
    (hg : m.layout.segment? id = some g) (h : m.layout.Mirrors id g d)
    (hkeep : (op.run m).2.page? id ≠ none) (hr : (op.run m).1.LeavesAlone id g.file d) :
    (op.run m).2.layout.Mirrors id g d := by
  have hthere : m.layout.page id ≠ none := by
    intro hnone
    rw [Layout.segment?, hnone] at hg
    cases hg
  have hspares {α : Type} {x : Step Machine α}
      (hx : Ends x m (fun _ t => Spares id m.layout t.layout)
        (fun _ t => Spares id m.layout t.layout))
      (hkeep : (perform x m).2.page? id ≠ none) (hr : (perform x m).1.LeavesAlone id g.file d) :
      (perform x m).2.layout.Mirrors id g d :=
    mirrors_perform (hx.mono (fun _ _ hsp hne _ => (hsp hne).mirrors h)
      fun _ _ hsp hne => (hsp hne).mirrors h) hkeep hr
  have hstays {α : Type} {x : Step Machine α}
      (hx : Ends x m (fun _ t => Stays id m.layout t.layout)
        (fun _ t => Stays id m.layout t.layout)) :=
    hspares (hx.mono (fun _ _ h _ => h) fun _ _ h _ => h)
  have hgives {α : Type} {x : Step Machine α}
      (hx : Ends x m (fun _ t => Spares id m.layout t.layout) (fun _ _ => False)) :=
    hspares (hx.mono (fun _ _ h => h) fun _ _ h => h.elim)
  have hrenews {α : Type} {x : Step Machine α} (hx : Renews id g d x m) :=
    mirrors_perform
      (hx.mono (fun _ _ hm (_ : _ ≠ none) hd => hm hd) fun _ _ hm (_ : _ ≠ none) => hm)
  have hsame {t : Machine} (ht : t.layout = m.layout) : t.layout.Mirrors id g d := by
    rwa [ht]
  cases op with
  | create s t => exact hsame (layout_create hs ha t)
  | refuse s t => exact hsame (layout_setSpace_same m rfl rfl)
  | armDisk reads writes => exact hsame (layout_armDisk m reads writes)
  | armFile file => exact hsame (layout_withFile_same m rfl)
  | drop s order => exact hgives (dropInOrder_spares hs hu ha) hkeep hr
  | kill s order => exact hgives (killInOrder_spares id hs hu order) hkeep hr
  | munmap s a => exact hgives (munmap_spares hs hu) hkeep hr
  | remove s a => exact hgives (remove_spares hs hu) hkeep hr
  | fork src dst t order =>
      exact hspares (forkInOrder_spares hs hu ha.1 (nodup_of_perm_keys ha.2.2) ha.2.1 t hthere)
        hkeep hr
  | copyFrom src dst order =>
      exact hstays (copyInOrder_stays hs hu ha.1 hthere) hkeep hr
  | alloc => exact hstays (alloc_stays hthere) hkeep hr
  | setUpStack => exact hstays (setUpStack_stays hs hu hthere) hkeep hr
  | mmap => exact hstays (mmap_stays hthere) hkeep hr
  | mmapDescriptor => exact hstays (mmapDescriptor_stays hthere) hkeep hr
  | claim => exact hrenews (claim_renews hs hu hg h) hkeep hr
  | fault => exact hrenews (handleFault_renews hs hu hg h) hkeep hr
  | read s a len sp => exact performRead_mirrors hs hu hg h len hr
  | write s a data sp => exact performWrite_mirrors hs hu hg h data hr

end Op

theorem Lives.mirrors {m t : Machine} {id : PageId} {g : Segment} {d : Array UInt8}
    {trail : List (Op × Report)} (h : Lives id m trail t) (hs : m.layout.Sound)
    (hu : m.layout.Unpinned) (hg : m.layout.segment? id = some g) (hm : m.layout.Mirrors id g d)
    (hr : ∀ x ∈ trail, x.2.LeavesAlone id g.file d) :
    t.layout.segment? id = some g ∧ t.layout.Mirrors id g d := by
  induction h with
  | nil => exact ⟨hg, hm⟩
  | cons _ ha h ih =>
      obtain ⟨cs, hw, -⟩ := Op.goes_run hs hu ha
      exact ih (hs.of_course hw.course) hw.unpinned (Op.segment?_run hs hu ha hg h.registered)
        (Op.mirrors_run hs hu ha hg hm h.registered (hr _ List.mem_cons_self))
        fun x hx => hr x (List.mem_cons_of_mem _ hx)

end Pager
