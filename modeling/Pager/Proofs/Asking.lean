import Pager.Proofs.Unasked
import Pager.Proofs.Copying
import Pager.Proofs.Pending

namespace Pager

open Step

/-- A file answers one request to write these bytes. Only a write of all of them
is a good one. -/
def File.Takes (d : File) (offset : Nat) (bs : List UInt8) (whole : Bool) (d' : File) : Prop :=
  (∃ n, File.writeAt offset bs d = .ok n d' ∧ whole = (n == bs.length)) ∨
    ∃ e, File.writeAt offset bs d = .error e d' ∧ whole = false

theorem Segment.writeBack_takes (g : Segment) (b : PageBytes) (d : File) :
    Ends (g.writeBack b) d
      (fun _ d' => d' = d ∨ d.Takes g.offset (Bytes.slice b 0 g.length) true d')
      (fun _ d' => d.Takes g.offset (Bytes.slice b 0 g.length) false d') := by
  have hlen : (Bytes.slice b 0 g.length).length = g.length := by
    rw [Bytes.length_slice, Nat.zero_add, Nat.min_eq_left g.length_le, Nat.sub_zero]
  rw [Segment.writeBack]
  split
  · exact .inl rfl
  · rw [ends_bind]
    refine (ends_self _ d).mono (fun n d' hx => ?_) fun e d' hx => .inr ⟨e, hx, rfl⟩
    split
    next heq => exact .inr (.inl ⟨n, hx, by rw [hlen, heq, beq_self_eq_true]⟩)
    next hne => exact .inl ⟨n, hx, by rw [hlen]; exact (beq_eq_false_iff_ne.mpr hne).symm⟩

theorem Layout.Sweeps.pending?_eq {l l' : Layout} (h : l.Sweeps l') (hs : l.Sound) :
    l'.pending? = l.pending? := by
  obtain ⟨entry, hand, hentry, -, rfl⟩ := h
  funext o
  refine pending?_congr (hold?_congr hs rfl (fun _ _ _ hq => hq) ?_) fun _ _ _ => rfl
  rcases hentry o with he | he
  · exact hardDirty_congr he
  · exact hardDirty_set (by decide) _ he

namespace Machine

variable {m t u v : Machine} {id o parent child : PageId} {page : Page} {p : PhysPage} {f : FrameId}
  {b : PageBytes} {g : Segment} {span : Nat} {dirty whole : Bool} {bs : List UInt8}

structure KeepsOtherPages (id : PageId) (m t : Machine) : Prop where
  page : ∀ o ≠ id, t.page? o = m.page? o
  unasked : Unasked m t

instance : IsPreorder Machine (KeepsOtherPages id) where
  refl m := ⟨fun _ _ => rfl, refl_of Unasked m⟩
  trans _ _ _ h h' := ⟨fun o ho => (h'.page o ho).trans (h.page o ho),
    trans_of Unasked h.unasked h'.unasked⟩

theorem KeepsPages.keepsOtherPages (h : KeepsPages m t) :
    KeepsOtherPages id m t := ⟨fun o _ => congrFun h.page o, h.unasked⟩

theorem leads_keepsOtherPages {ε α : Type} {x : EStateM ε Machine α} (h : Leads KeepsPages x) :
    Leads (KeepsOtherPages id) x := h.mono fun _ _ => KeepsPages.keepsOtherPages

theorem leads_unasked {ε α : Type} {x : EStateM ε Machine α} (h : Leads KeepsPages x) :
    Leads Unasked x := h.mono fun _ _ => KeepsPages.unasked

/-- A page with changes has asked its file once to write them. If that wrote them
all, the page is in a frame no longer. -/
structure WritesOut (m : Machine) (id : PageId) (g : Segment) (bs : List UInt8) (whole : Bool)
    (t : Machine) : Prop where
  pending : ∃ b, m.layout.pending? id = some (g, b) ∧ bs = Bytes.slice b 0 g.length
  takes : ∃ d, (m.files.get g.file).Takes g.offset bs whole d ∧ d.Unasked (t.files.get g.file)
  others : ∀ k ≠ g.file, (m.files.get k).Unasked (t.files.get k)
  gone : whole = true → t.layout.home? id = none

theorem WritesOut.inFrame (h : m.WritesOut id g bs whole t) :
    ∃ page f p, m.layout.InFrame id page f p ∧ page.segment? = some g ∧
      bs = Bytes.slice (m.ram.bytes p) 0 g.length := by
  obtain ⟨b, hb, rfl⟩ := h.pending
  obtain ⟨x, hx, -, rfl, rfl⟩ := Layout.exists_of_pending? hb
  obtain ⟨page, f, dirty, hin, hc, -⟩ := Layout.exists_of_hold? hx
  exact ⟨page, f, x.phys, hin, by rw [Page.segment?, hc], rfl⟩

/-- A file is asked to write once at most, and that for a page with changes. -/
def Asks (m t : Machine) : Prop :=
  Unasked m t ∨ ∃ id g bs whole, m.WritesOut id g bs whole t

theorem Asks.after (h : Asks m u) (hp : ∀ o, m.layout.home? o ≠ none → t.page? o = u.page? o)
    (hs : Unasked u t) : Asks m t := by
  rcases h with h | ⟨o, g, bs, whole, hpend, ⟨d, hd, hu⟩, hothers, hgone⟩
  · exact .inl (trans_of Unasked h hs)
  · refine .inr ⟨o, g, bs, whole, hpend, ⟨d, hd, hu.trans (hs _)⟩,
      fun k hk => (hothers k hk).trans (hs k), fun hwhole => ?_⟩
    have hhome : m.layout.home? o ≠ none := by
      intro hnone
      obtain ⟨b, hb, -⟩ := hpend
      rw [Layout.pending?_idle (Layout.hold?_idle hnone)] at hb
      cases hb
    change (t.page? o).bind Page.frame? = none
    rw [hp o hhome]
    exact hgone hwhole

theorem Asks.keepsOtherPages (h : Asks m u) (hid : m.layout.home? id = none)
    (hb : KeepsOtherPages id u t) :
    Asks m t := by
  refine h.after (fun o ho => hb.page o ?_) hb.unasked
  rintro rfl
  exact ho hid

theorem Asks.of_sweeps (h : Asks u t) (hs : m.layout.Sound) (hsw : m.layout.Sweeps u.layout)
    (hf : u.files = m.files) : Asks m t := by
  rw [Asks, Unasked] at h ⊢
  rw [hf] at h
  refine h.imp_right ?_
  rintro ⟨id, g, bs, whole, ⟨hp, htakes, hothers, hgone⟩⟩
  rw [hsw.pending?_eq hs] at hp
  rw [hf] at htakes hothers
  exact ⟨id, g, bs, whole, hp, htakes, hothers, hgone⟩

/-- What a page of a file asks for that leaves its frame. -/
structure Flushes (m : Machine) (id : PageId) (g : Segment) (dirty : Bool) (b : PageBytes)
    (whole : Bool) (t : Machine) : Prop where
  page : t.page? = m.page?
  asks : (whole = true ∧ Unasked m t) ∨ (dirty || m.hasFlag id .dirty) = true ∧
    (m.files.get g.file).Takes g.offset (Bytes.slice b 0 g.length) whole (t.files.get g.file) ∧
      ∀ k ≠ g.file, (m.files.get k).Unasked (t.files.get k)

theorem writeBack_flushes (dirty : Bool) :
    Ends (writeBack id g dirty b) m (fun _ t => m.Flushes id g dirty b true t)
      (fun e t => (∃ k, e = .errno k) ∧ m.Flushes id g dirty b false t) := by
  have hunmap := keepsPages_unmapPage m id
  simp only [writeBack, ends_bind, ends_get, ends_modify]
  split
  next hd =>
    rw [ends_bind, ends_note, ends_onFile]
    generalize hu : (m.unmapPage id).emit (.writingBack id.page g.offset) = u
    have hm : KeepsPages m u := hu ▸ trans_of KeepsPages hunmap (keepsPages_emit _ _)
    have hfiles : u.files = m.files := by rw [← hu]; rfl
    have hothers (d : File) (k : FileId) (hk : k ≠ g.file) :
        (m.files.get k).Unasked ((u.withFile g.file d).files.get k) := by
      change (m.files.get k).Unasked ((u.files.set g.file d).get k)
      rw [Store.get_set_of_ne _ hk.symm, hfiles]
      exact .refl _
    have hself (d : File) : (u.withFile g.file d).files.get g.file = d := Store.get_set_self ..
    rw [hfiles]
    refine (g.writeBack_takes b _).mono ?_ ?_
    · rintro _ d (rfl | ht)
      · refine ⟨hm.page, .inl ⟨rfl, trans_of Unasked hm.unasked (unasked_withFile ?_)⟩⟩
        rw [hfiles]
        exact .refl _
      · refine ⟨hm.page, .inr ⟨hd, ?_, hothers d⟩⟩
        rwa [hself]
    · intro e d ht
      refine ⟨⟨e, rfl⟩, hm.page, .inr ⟨hd, ?_, hothers d⟩⟩
      rwa [hself]
  next => exact ⟨hunmap.page, .inl ⟨rfl, hunmap.unasked⟩⟩

/-- The frames may be other ones meanwhile, so that `m` is what the system was like
before. -/
theorem Flushes.asks_of (h : u.Flushes id g dirty b whole v) (hin : m.layout.InFrame id page f p)
    (hc : page.content = .file g span dirty) (hb : b = m.ram.bytes p)
    (hm : ∀ k, u.hasFlag id k = m.hasFlag id k) (hf : u.files = m.files) (ht : Unasked v t)
    (hgone : whole = true → t.layout.home? id = none) : Asks m t := by
  rcases h.asks with ⟨-, hs⟩ | ⟨hd, htakes, hothers⟩
  · exact .inl (trans_of Unasked (trans_of Unasked (unasked_of_eq hf) hs) ht)
  · rw [hf] at htakes hothers
    rw [hm] at hd
    have hhold := Layout.hold?_file hin hc
    refine .inr ⟨id, g, _, whole, ⟨b, ?_, rfl⟩, ⟨_, htakes, ht _⟩,
      fun k hk => (hothers k hk).trans (ht k), hgone⟩
    rw [Layout.pending?_of_hold? hhold hd, hb]
    rfl

theorem saveFile_asks (hin : m.layout.InFrame id page f p)
    (hc : page.content = .file g span dirty) (hb : b = m.ram.bytes p)
    (hm : ∀ k, u.hasFlag id k = m.hasFlag id k) (hf : u.files = m.files) :
    Ends (saveFile id page g span dirty b) u (fun _ t => Asks m t) (fun _ t => Asks m t) := by
  rw [saveFile, ends_bind, ends_handle]
  refine (writeBack_flushes dirty).mono (fun _ t h => ?_) ?_
  · refine h.asks_of hin hc hb hm hf (unasked_of_eq (t := t.setPage id _) rfl) fun _ => ?_
    change ((t.setPage id _).page? id).bind Page.frame? = none
    rw [page?_setPage, if_pos rfl]
    rfl
  · rintro _ t ⟨⟨k, rfl⟩, h⟩
    exact h.asks_of hin hc hb hm hf (unasked_of_eq (t := t.setPage id _) rfl) (by rintro ⟨⟩)

theorem saveAnon_unasked (id : PageId) (page : Page) (held : Option Slot) (b : PageBytes) :
    Leads Unasked (saveAnon id page held b) := by
  have hswap {α : Type} (x : Step Swap α) : Leads Unasked (onSwap x) :=
    leads_unasked (onSwap_keepsPages x)
  refine (leads_demand _ _).bind fun _ => ?_
  refine (leads_unasked allocSlot_keepsPages).bind fun slot => ?_
  refine (leads_modify fun m => (keepsPages_unmapPage m id).unasked).bind fun _ => ?_
  refine ((hswap _).handle fun _ => (hswap _).bind fun _ => leads_fail _).bind fun _ => ?_
  exact (leads_unasked (note_keepsPages _)).bind fun _ => leads_modify fun m => unasked_of_eq rfl

theorem swapOut_asks (hp : m.layout.phys? f = some p) (hb : b = m.ram.bytes p)
    (hs : u.spaces = m.spaces) (hf : u.files = m.files) :
    Ends (swapOut id f b) u (fun _ t => Asks m t) (fun _ t => Asks m t) := by
  have hspace : u.space = m.space := by
    funext s
    rw [space, hs]
    rfl
  have hpage : u.page? id = m.page? id := by rw [page?_eq, hspace]; rfl
  have hm (k : Flag) : u.hasFlag id k = m.hasFlag id k := by rw [hasFlag, table, hspace]; rfl
  have hsame : Asks m u := .inl (unasked_of_eq hf)
  rw [swapOut, ends_bind, ends_get, hpage]
  cases hpage : m.page? id with
  | none => exact hsame
  | some page =>
      dsimp only
      split
      next hframe =>
        cases hc : page.content with
        | unloaded => exact hsame
        | anon held =>
            exact (saveAnon_unasked id page held b u).mono
              (fun _ _ h => .inl (trans_of Unasked (unasked_of_eq hf) h))
              fun _ _ h => .inl (trans_of Unasked (unasked_of_eq hf) h)
        | file g span dirty => exact saveFile_asks ⟨hpage, hframe, hp⟩ hc hb hm hf
      next => exact hsame

theorem vacate_asks (hr : Ram.InRange m.ram.capacity p) (hp : m.layout.phys? f = some p)
    (o : Option PageId) :
    Ends (vacate f p o) (m.onFrames fun x => (x.unbind f).pin f) (fun _ t => Asks m t)
      (fun _ t => Asks m t) := by
  cases o with
  | none => exact .inl (unasked_of_eq rfl)
  | some id =>
      simp only [vacate, ends_bind, ends_note]
      have hr' : Ram.InRange ((m.onFrames fun x => (x.unbind f).pin f).emit
          (.evicting id.page f)).ram.capacity p := hr
      rw [ends_readFrame hr', ends_handle]
      refine Ends.mono (swapOut_asks hp rfl rfl rfl) (fun _ _ h => h) ?_
      rintro (e | e) t h
      · exact h.after (fun _ _ => rfl) (unasked_of_eq rfl)
      · exact h

theorem evict_asks (hs : m.layout.Sound) (hu : m.layout.Unpinned) :
    Ends evict m (fun _ t => Asks m t) (fun _ t => Asks m t) := by
  rw [evict, ends_bind]
  refine (pickVictim_ends hs hu).mono ?_ ?_
  · rintro f t ⟨i, u, hiu, -, ⟨⟨fr, hfr, -⟩, -⟩, rfl⟩
    have hpos : 0 < m.frames.size := by
      rw [← hiu.size]
      exact Nat.zero_lt_of_lt (Array.getElem?_eq_some_iff.mp hfr).1
    have hsw := hiu.sweeps hpos
    have hst := hs.of_hidden hsw.hidden
    have hfiles : u.files = m.files := by rw [hiu.rest]
    have hfr' : (u.onFrames FrameTable.advance).frames.get? f = some fr := hfr
    have hp : (u.onFrames FrameTable.advance).layout.phys? f = some fr.page :=
      congrArg (Option.map Frame.page) hfr
    have hvacate := vacate_asks (hst.inRange hp) hp
      ((u.onFrames FrameTable.advance).tenant? fr)
    simp only [ends_bind]
    rw [ends_frame hfr']
    simp only [ends_get, ends_modify, ends_pure]
    exact hvacate.mono (fun _ _ h => h.of_sweeps hs hsw hfiles)
      fun _ _ h => h.of_sweeps hs hsw hfiles
  · rintro e _ ⟨-, -, rfl⟩
    exact .inl (unasked_of_eq rfl)

theorem takeFrame_asks (hs : m.layout.Sound) (hu : m.layout.Unpinned) :
    Ends takeFrame m (fun _ t => Asks m t) (fun _ t => Asks m t) := by
  rw [takeFrame, ends_bind, ends_get]
  cases m.ram.alloc? with
  | none => exact evict_asks hs hu
  | some x => exact .inl (unasked_of_eq rfl)

theorem occupy_asks (hs : m.layout.Sound) (hu : m.layout.Unpinned)
    (hid : m.layout.home? id = none) (page : Page) :
    Ends (occupy id page) m (fun _ t => Asks m t) (fun _ t => Asks m t) := by
  have hframes (g : FrameTable → FrameTable) :
      Leads (KeepsOtherPages id) (modify (onFrames g) : Step Machine PUnit) :=
    leads_keepsOtherPages (onFrames_keepsPages g)
  simp only [occupy, acquireFrame, bind_assoc, pure_bind]
  rw [ends_bind]
  refine (takeFrame_asks hs hu).mono (fun r u h => ?_) fun _ _ h => h
  refine Ends.mono
    (?_ : Ends _ u (fun _ t => KeepsOtherPages id u t) (fun _ t => KeepsOtherPages id u t))
    (fun _ _ h' => h.keepsOtherPages hid h') fun _ _ h' => h.keepsOtherPages hid h'
  refine Leads.bind (leads_keepsOtherPages (writeFrame_keepsPages _ _)) (fun _ => ?_) u
  refine ((leads_keepsOtherPages (demandIdle_keepsPages id)).onFailure (hframes _)).bind fun _ => ?_
  refine Leads.bind (.onFailure ?_ ?_) fun _ =>
    (leads_keepsOtherPages (note_keepsPages _)).bind fun _ => leads_pure _
  · refine (leads_keepsOtherPages (install_keepsPages _ _ _)).bind fun _ =>
      (leads_keepsOtherPages (fetch_keepsPages _ _ _)).bind fun c =>
        leads_modify fun m => ⟨fun o ho => ?_, unasked_of_eq rfl⟩
    exact (page?_setPage ..).trans (if_neg ho.symm)
  · refine leads_modify fun m => KeepsPages.keepsOtherPages ?_
    exact trans_of KeepsPages (keepsPages_unmapPage m id) (keepsPages_onFrames _ _)

theorem claimPage_asks (hs : m.layout.Sound) (hu : m.layout.Unpinned)
    (hpage : m.layout.page id = some page) :
    Ends (claimPage id page) m (fun _ t => Asks m t) (fun _ t => Asks m t) := by
  rw [claimPage]
  cases hf : page.frame? with
  | some f =>
      have hclaim : Leads KeepsPages (do let fr ← frame f; install id fr.page page.writable) :=
        (frame_keepsPages f).bind fun fr => install_keepsPages id fr.page page.writable
      exact (hclaim m).mono (fun _ _ h => .inl h.unasked) fun _ _ h => .inl h.unasked
  | none =>
      have hid : m.layout.home? id = none := by rw [Layout.home?, hpage, Option.bind_some, hf]
      rw [ends_bind]
      exact (occupy_asks hs hu hid page).mono
        (fun _ _ h => h.after (fun _ _ => rfl) (unasked_of_eq rfl)) fun _ _ h => h

theorem copyResident_asks (hs : m.layout.Sound) (hu : m.layout.Unpinned)
    (hpage : m.layout.page child = some page) (hn : page.frame? = none) :
    Ends (copyResident parent child) m (fun _ t => Asks m t) (fun _ t => Asks m t) := by
  have hget : m.page? child = some page := hpage
  have hid : m.layout.home? child = none := by rw [Layout.home?, hpage, Option.bind_some, hn]
  simp only [copyResident, ends_bind, ends_get, hget]
  refine (occupy_asks hs hu hid page).mono (fun r t h => ?_) fun _ _ h => h
  have hcopy := (copyContent_keepsPages parent r.2).ensuring
    (onFrames_keepsPages fun x => x.unpin r.1)
  exact (hcopy t).mono (fun _ _ h' => h.keepsOtherPages hid h'.keepsOtherPages)
    fun _ _ h' => h.keepsOtherPages hid h'.keepsOtherPages

theorem giveUp_unasked (id : PageId) (c : Content) (r : Option PageBytes)
    (hc : ∀ g span dirty b, c = .file g span dirty → r ≠ some b) :
    Leads Unasked (giveUp id c r) := by
  cases c with
  | unloaded => exact leads_pure ()
  | anon slot =>
      have hfree : Leads Unasked (slot.forM freeSlot : Step Machine Unit) := by
        cases slot with
        | none => exact leads_pure ()
        | some s => exact leads_unasked (onSwap_keepsPages _)
      refine hfree.bind fun _ => ?_
      split
      · exact leads_modify fun m => (keepsPages_unmapPage m id).unasked
      · exact leads_pure ()
  | file g span dirty =>
      cases r with
      | none => exact leads_pure ()
      | some b => exact absurd rfl (hc g span dirty b rfl)

theorem destroy_unasked (id : PageId) (page : Page)
    (hc : ∀ f g span dirty, page.frame? = some f → page.content ≠ .file g span dirty) :
    Leads Unasked (destroy id page) := by
  rw [destroy]
  cases hf : page.frame? with
  | none => exact giveUp_unasked id page.content none fun _ _ _ b _ => (Option.some_ne_none b).symm
  | some f =>
      refine (leads_unasked (frame_keepsPages f)).bind fun fr =>
        (leads_unasked (readFrame_keepsPages _)).bind fun b => ?_
      refine (giveUp_unasked id page.content (some b) fun g span dirty _ h =>
        absurd h (hc f g span dirty hf)).bind fun _ => ?_
      exact leads_modify fun m => (keepsPages_onFrames _ _).unasked

theorem destroyFile_asks (hs : m.layout.Sound) (hin : m.layout.InFrame id page f p)
    (hc : page.content = .file g span dirty) :
    Ends (destroy id page) (m.erasePage id) (fun _ t => Asks m t) (fun _ t => Asks m t) := by
  obtain ⟨fr, hfr, rfl⟩ := Option.map_eq_some_iff.mp hin.2.2
  have hr : Ram.InRange (m.erasePage id).ram.capacity fr.page := hs.inRange hin.2.2
  have hgone {t : Machine} (h : t.page? = (m.erasePage id).page?) : t.layout.home? id = none := by
    change (t.page? id).bind Page.frame? = none
    rw [h, page?_erasePage, if_pos rfl]
    rfl
  have hflags (k : Flag) : (m.erasePage id).hasFlag id k = m.hasFlag id k := by
    change ((m.erasePage id).mapping? id).any _ = (m.mapping? id).any _
    rw [mapping?_erasePage]
  simp only [destroy, hin.2.1, hc, giveUp, ends_bind]
  rw [ends_frame (m := m.erasePage id) (f := f) hfr, ends_readFrame hr, ends_handle]
  refine (writeBack_flushes dirty).mono (fun _ t h => ?_) ?_
  · exact h.asks_of hin hc rfl hflags rfl (unasked_of_eq (t := t.onFrames _) rfl)
      fun _ => hgone h.page
  · rintro _ t ⟨⟨k, rfl⟩, h⟩
    exact h.asks_of hin hc rfl hflags rfl (unasked_of_eq (t := (t.emit _).onFrames _) rfl)
      (by rintro ⟨⟩)

theorem removePage_asks (hs : m.layout.Sound) (id : PageId) :
    Ends (removePage id) m (fun _ t => Asks m t) (fun _ t => Asks m t) := by
  rw [removePage, ends_bind, ends_get]
  cases hpage : m.page? id with
  | none => exact .inl (refl_of Unasked m)
  | some page =>
      simp only [ends_bind, ends_modify, ends_pure]
      by_cases hc : ∃ f g span dirty, page.frame? = some f ∧ page.content = .file g span dirty
      · obtain ⟨f, g, span, dirty, hf, hc⟩ := hc
        have hhome : m.layout.home? id = some f := by
          change (m.page? id).bind Page.frame? = _
          rw [hpage, Option.bind_some, hf]
        obtain ⟨p, hp⟩ := hs.exists_phys? hhome
        exact destroyFile_asks hs ⟨hpage, hf, hp⟩ hc
      · have herase : Unasked m (m.erasePage id) := unasked_of_eq rfl
        have hdestroy := destroy_unasked id page
          fun f g span dirty hf h => hc ⟨f, g, span, dirty, hf, h⟩
        exact (hdestroy _).mono (fun _ t h => .inl (trans_of Unasked herase h))
          fun _ t h => .inl (trans_of Unasked herase h)

end Machine

end Pager
