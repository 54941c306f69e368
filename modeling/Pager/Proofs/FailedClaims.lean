import Pager.Proofs.Rollback

namespace Pager

open Step

namespace Layout

variable {l l₁ l₂ l' : Layout} {id o : PageId} {f : FrameId} {p : PhysPage} {v : Option PageId}

/-- Pages, slots and files are as they were. What was written went to frames
that hold no page, and of the mappings only accessed bits may be gone. -/
structure Unmoved (l l' : Layout) : Prop where
  page : l'.page = l.page
  entry : ∀ id, Entry.Cools (l.entry id) (l'.entry id)
  frame : ∀ id f p, l.home? id = some f → l.phys? f = some p →
    l'.phys? f = some p ∧ l'.bytes p = l.bytes p
  bitmap : l'.bitmap = l.bitmap
  stored : l'.stored = l.stored
  data : l'.data = l.data

/-- No page was disturbed but the one that is named, if one is. Slots in use are
so still, and files have got only what that page had for them. -/
structure Disturbs (l : Layout) (v : Option PageId) (l' : Layout) : Prop where
  page : ∀ id, v ≠ some id → l'.page id = l.page id
  entry : ∀ id, v ≠ some id → Entry.Cools (l.entry id) (l'.entry id)
  frame : ∀ id f p, v ≠ some id → l.home? id = some f → l.phys? f = some p →
    l'.phys? f = some p ∧ l'.bytes p = l.bytes p
  used : ∀ s : Slot, l.bitmap.test s.index = true →
    l'.bitmap.test s.index = true ∧ l'.stored s = l.stored s
  taken : ∀ s : Slot, l'.bitmap.test s.index = true → l.bitmap.test s.index = true ∨
    ∃ id, v = some id ∧ l'.slot? id = some s
  data : ∀ k i, (l'.data k)[i]? = (l.data k)[i]? ∨ ∃ id g b, v = some id ∧
    l.pending? id = some (g, b) ∧ g.Covers k i ∧ (l'.data k)[i]? = b[i - g.offset]?

/-- A page has left its frame. Private memory is in a slot that was free, and a
file has got the changes that were pending for it. -/
structure Evicted (l : Layout) (id : PageId) (l' : Layout) : Prop where
  drifts : ∃ page q, l.page id = some page ∧ l'.page id = some q ∧ page.Drifts q
  resident : l.home? id ≠ none
  gone : l'.home? id = none
  unmapped : l'.entry id = none
  saved : ∀ page, l.page id = some page → page.kind = .anon → ∃ s, l'.slot? id = some s ∧
    l.bitmap.test s.index = false ∧ l'.bitmap.test s.index = true ∧
    l.held? id = some (l'.stored s)
  written : ∀ g b, l.pending? id = some (g, b) → ∀ i, g.Covers g.file i →
    (l'.data g.file)[i]? = b[i - g.offset]?

/-- A page is in its frame with its bytes, and with the changes that are pending
for its file. At most its mapping is gone. -/
structure StaysPut (l : Layout) (id : PageId) (l' : Layout) : Prop where
  drifts : ∃ page q, l.page id = some page ∧ l'.page id = some q ∧ page.Drifts q
  frame : ∃ f p, l.home? id = some f ∧ l'.home? id = some f ∧ l.phys? f = some p ∧
    l'.phys? f = some p ∧ l'.bytes p = l.bytes p
  entry : l'.entry id = none ∨ Entry.Cools (l.entry id) (l'.entry id)
  pending : l'.pending? id = l.pending? id

/-- A page that was not made accessible is as it was. It may be that another page
was disturbed to no avail. -/
structure Foiled (l : Layout) (id : PageId) (l' : Layout) : Prop where
  page : l'.page id = l.page id
  entry : l'.entry id = l.entry id
  owner : ∀ f, l'.owner? f = some id → l.owner? f = some id
  unpinned : l'.Unpinned
  others : ∃ v, v ≠ some id ∧ l.Disturbs v l' ∧ ∀ o, v = some o → l.Evicted o l' ∨ l.StaysPut o l'

namespace Unmoved

theorem of_eq (hpage : l'.page = l.page) (hentry : l'.entry = l.entry)
    (hframe : ∀ id f p, l.home? id = some f → l.phys? f = some p →
      l'.phys? f = some p ∧ l'.bytes p = l.bytes p)
    (hbitmap : l'.bitmap = l.bitmap) (hstored : l'.stored = l.stored) (hdata : l'.data = l.data) :
    l.Unmoved l' :=
  ⟨hpage, fun id => .inl (congrFun hentry id), hframe, hbitmap, hstored, hdata⟩

theorem refl (l : Layout) : l.Unmoved l :=
  .of_eq rfl rfl (fun _ _ _ _ hp => ⟨hp, rfl⟩) rfl rfl rfl

theorem home? (h : l.Unmoved l') : l'.home? = l.home? := by
  funext id
  rw [Layout.home?, h.page]
  rfl

theorem slot? (h : l.Unmoved l') : l'.slot? = l.slot? := by
  funext id
  rw [Layout.slot?, h.page]
  rfl

theorem trans (h : l.Unmoved l₁) (h' : l₁.Unmoved l') : l.Unmoved l' where
  page := h'.page.trans h.page
  entry id := (h.entry id).trans (h'.entry id)
  frame id f p hf hp := by
    obtain ⟨hp₁, hb₁⟩ := h.frame id f p hf hp
    obtain ⟨hp', hb'⟩ := h'.frame id f p (by rwa [h.home?]) hp₁
    exact ⟨hp', hb'.trans hb₁⟩
  bitmap := h'.bitmap.trans h.bitmap
  stored := h'.stored.trans h.stored
  data := h'.data.trans h.data

theorem hardDirty (h : l.Unmoved l') (id : PageId) : l'.hardDirty id = l.hardDirty id := by
  rcases h.entry id with he | he
  · exact hardDirty_congr he
  · exact hardDirty_set (by decide) _ he

theorem held? (h : l.Unmoved l') (hs : l.Sound) (id : PageId) : l'.held? id = l.held? id :=
  held?_congr hs (congrFun h.page id) (h.frame id) fun s _ => congrFun h.stored s

theorem hold? (h : l.Unmoved l') (hs : l.Sound) (id : PageId) : l'.hold? id = l.hold? id :=
  hold?_congr hs (congrFun h.page id) (fun f p hf hp => (h.frame id f p hf hp).1) (h.hardDirty id)

theorem fitting (h : l.Unmoved l') (hs : l.Sound) (hf : l.Fitting) : l'.Fitting := by
  intro id x hx
  rw [h.data]
  exact hf id x (by rwa [← h.hold? hs])

theorem pending? (h : l.Unmoved l') (hs : l.Sound) (id : PageId) :
    l'.pending? id = l.pending? id := by
  refine pending?_congr (h.hold? hs id) fun x hx _ => ?_
  obtain ⟨f, hf, hp⟩ := home?_of_hold? hx
  exact (h.frame id f x.phys hf hp).2

theorem disturbs (h : l.Unmoved l') (v : Option PageId) : l.Disturbs v l' where
  page id _ := congrFun h.page id
  entry id _ := h.entry id
  frame id f p _ := h.frame id f p
  used s hs := ⟨by rwa [h.bitmap], congrFun h.stored s⟩
  taken s hs := .inl (by rwa [h.bitmap] at hs)
  data k i := .inl (by rw [h.data])

end Unmoved

theorem Sweeps.unmoved (h : l.Sweeps l') : l.Unmoved l' := by
  obtain ⟨entry, hand, hentry, -, rfl⟩ := h
  exact ⟨rfl, hentry, fun _ _ _ _ hp => ⟨hp, rfl⟩, rfl, rfl, rfl⟩

theorem unmoved_pin (l : Layout) (f : FrameId) :
    l.Unmoved { l with frames := l.frames.pin f } :=
  .of_eq rfl rfl (fun _ k _ _ hp => ⟨(congrFun FrameTable.phys?_pin k).trans hp, rfl⟩) rfl rfl rfl

theorem unmoved_scribble (hs : l.Sound) (hf : l.Spare f p) (b : PageBytes) :
    l.Unmoved { l with bytes := Function.update l.bytes p b } :=
  .of_eq rfl rfl (fun _ _ _ hk hq => ⟨hq, bytes_other hs hf.1 hq (home?_ne_spare hs hf hk)⟩)
    rfl rfl rfl

theorem unmoved_unpin (l : Layout) (f : FrameId) (runs : Nat → Nat) :
    l.Unmoved { l with frames := l.frames.unpin f, runs := runs } :=
  .of_eq rfl rfl (fun _ k _ _ hp => ⟨(congrFun FrameTable.phys?_unpin k).trans hp, rfl⟩)
    rfl rfl rfl

theorem Disturbs.between (h : l₁.Disturbs v l₂) (h₁ : l.Unmoved l₁) (hs : l.Sound)
    (h₂ : l₂.Unmoved l') : l.Disturbs v l' where
  page id hv := (congrFun h₂.page id).trans ((h.page id hv).trans (congrFun h₁.page id))
  entry id hv := ((h₁.entry id).trans (h.entry id hv)).trans (h₂.entry id)
  frame id f p hv hf hp := by
    obtain ⟨hp₁, hb₁⟩ := h₁.frame id f p hf hp
    have hf₁ : l₁.home? id = some f := by rwa [h₁.home?]
    obtain ⟨hp₂, hb₂⟩ := h.frame id f p hv hf₁ hp₁
    have hf₂ : l₂.home? id = some f := by rwa [home?, h.page id hv]
    obtain ⟨hp', hb'⟩ := h₂.frame id f p hf₂ hp₂
    exact ⟨hp', hb'.trans (hb₂.trans hb₁)⟩
  used s ht := by
    obtain ⟨ht₂, hst⟩ := h.used s (by rwa [h₁.bitmap])
    rw [h₂.bitmap, h₂.stored, hst, h₁.stored]
    exact ⟨ht₂, rfl⟩
  taken s ht := by
    rw [← h₁.bitmap, h₂.slot?]
    exact h.taken s (by rwa [h₂.bitmap] at ht)
  data k i := by
    rw [h₂.data, ← h₁.data]
    refine (h.data k i).imp_right ?_
    rintro ⟨id, g, b, hv, hp, hc⟩
    exact ⟨id, g, b, hv, by rwa [← h₁.pending? hs], hc⟩

theorem Evicted.between (h : l₁.Evicted id l₂) (h₁ : l.Unmoved l₁) (hs : l.Sound)
    (h₂ : l₂.Unmoved l') : l.Evicted id l' where
  drifts := by
    rw [← h₁.page, h₂.page]
    exact h.drifts
  resident := by
    rw [← h₁.home?]
    exact h.resident
  gone := by
    rw [h₂.home?]
    exact h.gone
  unmapped := by
    rcases h₂.entry id with he | he <;> rw [he, h.unmapped]
    rfl
  saved page hpage hk := by
    rw [← h₁.page] at hpage
    rw [h₂.slot?, h₂.bitmap, h₂.stored, ← h₁.bitmap, ← h₁.held? hs]
    exact h.saved page hpage hk
  written g b hp i hi := by
    rw [h₂.data]
    exact h.written g b (by rwa [h₁.pending? hs]) i hi

theorem StaysPut.between (h : l₁.StaysPut id l₂) (h₁ : l.Unmoved l₁) (hs : l.Sound)
    (h₂ : l₂.Unmoved l') (hs₂ : l₂.Sound) : l.StaysPut id l' where
  drifts := by
    rw [← h₁.page, h₂.page]
    exact h.drifts
  frame := by
    obtain ⟨f, p, hf₁, hf₂, hp₁, hp₂, hb⟩ := h.frame
    have hf : l.home? id = some f := by rwa [← h₁.home?]
    obtain ⟨q, hq⟩ := hs.exists_phys? hf
    obtain ⟨hq₁, hb₁⟩ := h₁.frame id f q hf hq
    obtain rfl : p = q := Option.some.inj (hp₁.symm.trans hq₁)
    obtain ⟨hp', hb'⟩ := h₂.frame id f p hf₂ hp₂
    exact ⟨f, p, hf, by rwa [h₂.home?], hq, hp', hb'.trans (hb.trans hb₁)⟩
  entry := by
    rcases h.entry with he | he
    · left
      rcases h₂.entry id with he' | he' <;> rw [he', he]
      rfl
    · exact .inr (((h₁.entry id).trans he).trans (h₂.entry id))
  pending := by rw [h₂.pending? hs₂, h.pending, h₁.pending? hs]

theorem getElem?_data_spill (g : Segment) (b : PageBytes) (n : Nat) (d : FileId → Array UInt8)
    (k : FileId) (i : Nat) :
    (Function.update d g.file (g.spill b n (d g.file)) k)[i]? = (d k)[i]? ∨ g.Covers k i ∧
      (Function.update d g.file (g.spill b n (d g.file)) k)[i]? = b[i - g.offset]? := by
  by_cases hk : k = g.file
  · subst hk
    rw [Function.update_self, Segment.getElem?_spill]
    split
    next hc => exact .inr ⟨⟨rfl, hc.1, by omega⟩, rfl⟩
    next => exact .inl rfl
  · rw [Function.update_of_ne hk]
    exact .inl rfl

theorem Leaves.disturbs (h : l.Leaves id f p l') (hs : l.Sound) : l.Disturbs (some id) l' := by
  have hphys (k : FrameId) : l'.phys? k = l.phys? k := by
    rw [phys?, h.frames, FrameTable.phys?_unbind]
    rfl
  have hne {o : PageId} (ho : some id ≠ some o) : o ≠ id := fun h => ho (congrArg some h.symm)
  cases h with
  | anon page s hpage hf hc hp hi ht =>
      refine ⟨fun o ho => Function.update_of_ne (hne ho) .., fun o ho =>
        .inl (Function.update_of_ne (hne ho) ..), fun o k r _ _ hr => ⟨(hphys k).trans hr, rfl⟩,
        fun k hk => ?_, fun k hk => ?_, fun _ _ => .inl rfl⟩
      · have hks : k ≠ s := by
          rintro rfl
          rw [ht] at hk
          cases hk
        refine ⟨?_, Function.update_of_ne hks ..⟩
        change (l.bitmap.mark s.index).test k.index = true
        rw [Swap.Bitmap.test_mark hs.bitmap.wellFormed hi, hk, Bool.or_true]
      · change (l.bitmap.mark s.index).test k.index = true at hk
        rw [Swap.Bitmap.test_mark hs.bitmap.wellFormed hi, Bool.or_eq_true,
          decide_eq_true_iff] at hk
        rcases hk with hk | hk
        · refine .inr ⟨id, rfl, ?_⟩
          obtain rfl : s = k := by cases s; cases k; simp_all
          simp [slot?, leave, Page.slot?]
        · exact .inl hk
  | file page g span dirty hpage hf hc hp =>
      refine ⟨fun o ho => Function.update_of_ne (hne ho) .., fun o ho =>
        .inl (Function.update_of_ne (hne ho) ..), fun o k r _ _ hr => ⟨(hphys k).trans hr, rfl⟩,
        fun k hk => ⟨hk, rfl⟩, fun k hk => .inl hk, fun k i => ?_⟩
      dsimp only
      split
      next hd =>
        have hx := pending?_of_hold? (hold?_file ⟨hpage, hf, hp⟩ hc) hd
        refine (getElem?_data_spill g (l.bytes p) g.length l.data k i).imp_right fun hcov => ?_
        exact ⟨id, g, l.bytes p, rfl, hx, hcov⟩
      next => exact .inl rfl

theorem Lingers.disturbs (h : l.Lingers id f p l') : l.Disturbs (some id) l' := by
  have hne {o : PageId} (ho : some id ≠ some o) : o ≠ id := fun h => ho (congrArg some h.symm)
  cases h with
  | full => exact (Unmoved.refl l).disturbs _
  | anon page stored hpage hf hc hp hst =>
      exact ⟨fun _ _ => rfl, fun o ho => .inl (Function.update_of_ne (hne ho) ..),
        fun _ _ _ _ _ hr => ⟨hr, rfl⟩, fun k hk => ⟨hk, hst k hk⟩, fun k hk => .inl hk,
        fun _ _ => .inl rfl⟩
  | file page g span dirty n hpage hf hc hp hd =>
      refine ⟨fun o ho => Function.update_of_ne (hne ho) .., fun o ho =>
        .inl (Function.update_of_ne (hne ho) ..), fun _ _ _ _ _ hr => ⟨hr, rfl⟩,
        fun k hk => ⟨hk, rfl⟩, fun k hk => .inl hk, fun k i => ?_⟩
      have hx := pending?_of_hold? (hold?_file ⟨hpage, hf, hp⟩ hc) hd
      refine (getElem?_data_spill g (l.bytes p) n l.data k i).imp_right fun hcov => ?_
      exact ⟨id, g, l.bytes p, rfl, hx, hcov⟩

theorem Leaves.evicted (h : l.Leaves id f p l') (hs : l.Sound) (hfit : l.Fitting) :
    l.Evicted id l' := by
  obtain ⟨q, hin⟩ := h.inFrame
  have hhome : l.home? id ≠ none := by
    rw [hin.home?_eq]
    exact Option.some_ne_none f
  have hheld := held?_inFrame hin
  cases h with
  | anon page s hpage hf hc hp hi ht =>
      have hpage' : Function.update l.page id
          (some { page with frame? := none, content := .anon (some s) }) id =
          some { page with frame? := none, content := .anon (some s) } := Function.update_self ..
      refine ⟨⟨page, _, hpage, hpage', rfl, hc ▸ .anon _ _⟩, hhome, ?_, Function.update_self ..,
        fun _ _ _ => ⟨s, ?_, ht, ?_, ?_⟩, fun g b hx => ?_⟩
      · exact congrArg (fun o => o.bind Page.frame?) hpage'
      · exact congrArg (fun o => o.bind Page.slot?) hpage'
      · change (l.bitmap.mark s.index).test s.index = true
        rw [Swap.Bitmap.test_mark hs.bitmap.wellFormed hi, decide_eq_true rfl, Bool.true_or]
      · rw [hheld]
        exact congrArg some (Function.update_self s (l.bytes p) l.stored).symm
      · rw [pending?_idle (hold?_anon page hpage (by rw [Page.kind, hc]))] at hx
        cases hx
  | file page g span dirty hpage hf hc hp =>
      have hpage' : Function.update l.page id
          (some { page with frame? := none, content := .file g span false }) id =
          some { page with frame? := none, content := .file g span false } :=
        Function.update_self ..
      refine ⟨⟨page, _, hpage, hpage', rfl, hc ▸ .file _ _ _ _⟩, hhome, ?_,
        Function.update_self .., fun q hq hk => ?_, fun k b hx i hi => ?_⟩
      · exact congrArg (fun o => o.bind Page.frame?) hpage'
      · obtain rfl : page = q := Option.some.inj (hpage.symm.trans hq)
        rw [Page.kind, hc] at hk
        cases hk
      · obtain ⟨x, hhold, hd, rfl, rfl⟩ := exists_of_pending? hx
        have hfits := hfit id x hhold
        obtain rfl : _ = x := Option.some.inj ((hold?_file ⟨hpage, hf, hp⟩ hc).symm.trans hhold)
        unfold Segment.Fits at hfits
        obtain ⟨-, hlo, hhi⟩ := hi
        dsimp only at hd hfits hlo hhi ⊢
        rw [if_pos hd, spill, Function.update_self, Segment.getElem?_spill,
          if_pos ⟨hlo, by omega, by omega⟩]

theorem Lingers.staysPut (h : l.Lingers id f p l') : l.StaysPut id l' := by
  obtain ⟨q, hin⟩ := h.inFrame
  have hhome := hin.home?_eq
  have hphys := hin.2.2
  cases h with
  | full page hpage =>
      exact ⟨⟨page, page, hpage, hpage, .refl page⟩, ⟨f, p, hhome, hhome, hphys, hphys, rfl⟩,
        .inr (.refl _), rfl⟩
  | anon page stored hpage hf hc hp hst =>
      refine ⟨⟨page, page, hpage, hpage, .refl page⟩, ⟨f, p, hhome, hhome, hphys, hphys, rfl⟩,
        .inl (Function.update_self ..), ?_⟩
      have hidle (k : Layout) (hk : k.page id = some page) : k.pending? id = none :=
        pending?_idle (hold?_anon page hk (by rw [Page.kind, hc]))
      refine Eq.trans (hidle _ ?_) (hidle l hpage).symm
      exact hpage
  | file page g span dirty n hpage hf hc hp hd =>
      have hpage' : Function.update l.page id (some { page with content := .file g span true }) id =
          some { page with content := .file g span true } := Function.update_self ..
      refine ⟨⟨page, _, hpage, hpage', rfl, hc ▸ .file _ _ _ _⟩,
        ⟨f, p, hhome, ?_, hphys, hphys, rfl⟩, .inl (Function.update_self ..), ?_⟩
      · exact (congrArg (fun o => o.bind Page.frame?) hpage').trans hf
      · have hx := pending?_of_hold? (hold?_file ⟨hpage, hf, hp⟩ hc) hd
        refine Eq.trans (pending?_of_hold? (x := ⟨g, p, true || _⟩)
          (hold?_file (f := f) ⟨hpage', hf, ?_⟩ rfl) rfl) hx.symm
        exact hp

theorem Thwarts.moves (h : l.Thwarts id v l') (hs : l.Sound) (hu : l.Unpinned) :
    v = none ∧ l.Unmoved l' ∨ ∃ o f p l₁ l₂, v = some o ∧ l.Unmoved l₁ ∧ l₁.Sound ∧
      (l₁.Leaves o f p l₂ ∨ l₁.Lingers o f p l₂) ∧ l₂.Unmoved l' := by
  cases h with
  | refused => exact .inl ⟨rfl, .refl l⟩
  | lacks hid h =>
      cases h with
      | empty => exact .inl ⟨rfl, .refl l⟩
      | stuck l₁ l₂ o f p hsw hl =>
          exact .inr ⟨o, f, p, l₁, _, rfl, hsw.unmoved, hs.of_hidden hsw.hidden, .inr hl,
            .refl _⟩
  | undone l₁ f p b runs hid h hruns =>
      have ha := h.acquired hu
      have hs₁ := hs.of_rearranged ha.reach
      have hgive := (unmoved_scribble hs₁ ha.spare b).trans (unmoved_unpin _ f runs)
      cases h with
      | grow ps hfree hf =>
          refine .inl ⟨rfl, .trans ?_ hgive⟩
          exact .of_eq rfl rfl (fun _ _ _ _ hp => ⟨phys?_grow hp, rfl⟩) rfl rfl rfl
      | reuse l₀ hsw hspare =>
          exact .inl ⟨rfl, hsw.unmoved.trans ((unmoved_pin l₀ f).trans hgive)⟩
      | evict l₀ l₂ o hsw hl =>
          exact .inr ⟨o, f, p, l₀, l₂, rfl, hsw.unmoved, hs.of_hidden hsw.hidden, .inl hl,
            (unmoved_pin l₂ f).trans hgive⟩

theorem Thwarts.same_or_idle (h : l.Thwarts id v l') :
    v = none ∧ l' = l ∨ l.home? id = none := by
  cases h with
  | refused => exact .inl ⟨rfl, rfl⟩
  | lacks hid | undone _ _ _ _ _ hid => exact .inr hid

theorem Thwarts.foiled (h : l.Thwarts id v l') (hs : l.Sound) (hu : l.Unpinned)
    (hf : l.Fitting) : l.Foiled id l' := by
  have ha := h.aborted hu
  have hs' := hs.of_rearranged ha.reach
  have hothers : ∃ v, v ≠ some id ∧ l.Disturbs v l' ∧
      ∀ o, v = some o → l.Evicted o l' ∨ l.StaysPut o l' := by
    rcases h.moves hs hu with ⟨-, hun⟩ | ⟨o, f, p, l₁, l₂, rfl, h₁, hs₁, hmove, h₂⟩
    · exact ⟨none, by simp, hun.disturbs none, by rintro o ⟨⟩⟩
    · refine ⟨some o, ?_, ?_⟩
      · rintro ⟨⟩
        have hid : l.home? id ≠ none := by
          obtain ⟨q, hin⟩ := hmove.elim Leaves.inFrame Lingers.inFrame
          rw [← h₁.home?, hin.home?_eq]
          exact Option.some_ne_none f
        rcases h.same_or_idle with ⟨hv, -⟩ | hidle
        · cases hv
        · exact hid hidle
      · rcases hmove with hl | hl
        · refine ⟨(hl.disturbs hs₁).between h₁ hs h₂, ?_⟩
          rintro _ ⟨⟩
          exact .inl ((hl.evicted hs₁ (h₁.fitting hs hf)).between h₁ hs h₂)
        · refine ⟨hl.disturbs.between h₁ hs h₂, ?_⟩
          rintro _ ⟨⟩
          exact .inr (hl.staysPut.between h₁ hs h₂ (hs₁.of_rearranged hl.rearranged))
  obtain ⟨v, hv, hd, ho⟩ := hothers
  have hpage := hd.page id hv
  have hhome : l'.home? id = l.home? id := by
    rw [home?, hpage]
    rfl
  refine ⟨hpage, ?_, fun f hfr => ?_, ha.unpinned, v, hv, hd, ho⟩
  · rcases h.same_or_idle with ⟨-, rfl⟩ | hid
    · rfl
    · rw [hs.entry_eq_none hid, hs'.entry_eq_none (hhome.trans hid)]
  · rw [hs.owners, ← hhome, ← hs'.owners]
    exact hfr

end Layout

/-- A claim that fails, wherever it does, leaves its page as it was, and disturbs
one other page at most. -/
theorem Reachable.claim_fails {m t : Machine} (h : Reachable m) {s : SpaceId} {a : VirtAddr}
    {e : Failure} (hx : Machine.claim s a m = .error e t) :
    m.layout.Foiled ⟨s, a.page⟩ t.layout := by
  obtain ⟨hs, hu⟩ := h.sound
  have hends : Ends (Machine.claim s a) m (fun _ _ => True)
      (fun _ t => ∃ v, m.layout.Thwarts ⟨s, a.page⟩ v t.layout) := by
    simp only [Machine.claim, ends_bind, ends_get]
    cases hpage : m.find? s a with
    | none => exact ⟨none, .refused⟩
    | some page =>
        exact (Machine.claimPage_ends hs hu hpage).mono (fun _ _ _ => trivial) fun _ _ h => h.2
  obtain ⟨v, hv⟩ := hends.of_error hx
  exact hv.foiled hs hu h.fitting

theorem claim_fails_no_backing :
    ∃ m e t, m = ((Op.alloc 0 .file ⟨8192⟩ true none).run ((Op.write 0 ⟨4096⟩ [5] ⟨0⟩).run
        ((Op.alloc 0 .anon ⟨4096⟩ true none).run
          (.boot {} (.ofCapacity 1) (some (.ofCount 8)) [])).2).2).2 ∧
      Machine.claim 0 ⟨8192⟩ m = .error e t ∧ m.layout.Foiled ⟨0, ⟨2⟩⟩ t.layout := by
  have h₀ : Starts (.boot {} (.ofCapacity 1) (some (.ofCount 8)) []) :=
    ⟨{}, 1, some (.ofCount 8), [], by decide, by rintro d ⟨⟩; decide, rfl⟩
  have hr : Runs (.boot {} (.ofCapacity 1) (some (.ofCount 8)) [])
      [(.alloc 0 .anon ⟨4096⟩ true none, _), (.write 0 ⟨4096⟩ [5] ⟨0⟩, _),
        (.alloc 0 .file ⟨8192⟩ true none, _)] _ :=
    .cons trivial (.cons trivial (.cons trivial (.nil _)))
  have h : Reachable ((Op.alloc 0 .file ⟨8192⟩ true none).run ((Op.write 0 ⟨4096⟩ [5] ⟨0⟩).run
      ((Op.alloc 0 .anon ⟨4096⟩ true none).run
        (.boot {} (.ofCapacity 1) (some (.ofCount 8)) [])).2).2).2 := ⟨_, _, h₀, hr⟩
  generalize hm : ((Op.alloc 0 .file ⟨8192⟩ true none).run ((Op.write 0 ⟨4096⟩ [5] ⟨0⟩).run
      ((Op.alloc 0 .anon ⟨4096⟩ true none).run
        (.boot {} (.ofCapacity 1) (some (.ofCount 8)) [])).2).2).2 = m at h
  have herr : (Machine.perform (Machine.claim 0 ⟨8192⟩) m).1.failure = some (.errno .einval) := by
    rw [← hm]
    decide +kernel
  obtain ⟨t, hx⟩ := Machine.exists_error_of_perform herr
  exact ⟨m, _, t, rfl, hx, Reachable.claim_fails h hx⟩

end Pager
