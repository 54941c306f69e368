import Pager.Machine.Fork
import Pager.Proofs.Holds
import Pager.Proofs.Releasing

namespace Pager

open Step

/-- What is made of a page in another space, wherever the two are by now. The
page made of one of a file may not be loaded yet. -/
inductive Content.Twins : Content → Content → Prop
  | drifts {c d : Content} (h : c.Drifts d) : Twins c d
  | lazy (g : Segment) (span : Nat) (dirty : Bool) :
      Twins (.file g span dirty) (.unloaded .file (some (.segment g)) span)

structure Page.Twins (p q : Page) : Prop where
  writable : q.writable = p.writable
  content : p.content.Twins q.content

theorem Content.Drifts.twins {c d e : Content} (h : c.Drifts d) (h' : d.Twins e) :
    c.Twins e := by
  cases h' with
  | drifts h' => exact .drifts (h.trans h')
  | lazy =>
      cases h with
      | file => exact .lazy ..

theorem Content.Twins.drifts_trans {c d e : Content} (h : c.Twins d) (h' : d.Drifts e) :
    c.Twins e := by
  cases h with
  | drifts h => exact .drifts (h.trans h')
  | lazy =>
      cases h' with
      | unloaded => exact .lazy ..

theorem Page.Drifts.twins {p q r : Page} (h : p.Drifts q) (h' : q.Twins r) : p.Twins r :=
  ⟨h'.writable.trans h.writable, h.content.twins h'.content⟩

theorem Page.Twins.drifts {p q r : Page} (h : p.Twins q) (h' : q.Drifts r) : p.Twins r :=
  ⟨h'.writable.trans h.writable, h.content.drifts_trans h'.content⟩

theorem Page.Twins.kind_span {p q : Page} (h : p.Twins q) :
    q.kind = p.kind ∧ q.span = p.span := by
  obtain ⟨w, f, c⟩ := p
  obtain ⟨w', f', d⟩ := q
  obtain ⟨-, hc⟩ := h
  cases hc with
  | drifts hc => cases hc <;> exact ⟨rfl, rfl⟩
  | lazy => exact ⟨rfl, rfl⟩

namespace Layout

variable {l l' l'' : Layout} {src dst : SpaceId} {v : VirtPage} {vs ws : List VirtPage}
  {cs ds : List Change} {id : PageId} {page : Page} {c : Content} {f : FrameId} {p : PhysPage}
  {w : World} {b : PageBytes}

structure Adds (l : Layout) (src dst : SpaceId) (vs : List VirtPage) (cs : List Change)
    (l' : Layout) : Prop where
  course : l.UnpinnedCourse cs l'
  new : ∀ c ∈ cs, c.target.space = dst ∧ c.target.page ∈ vs ∧ l.page c.target = none
  spans : ∀ o p, .register o p ∈ cs →
    ∃ page, l.page ⟨src, o.page⟩ = some page ∧ p.span = page.span
  makes : ∀ c ∈ cs, c.Makes
  drifts : l.Drifts l'

/-- The pages named are those of the other space, with their contents. -/
structure Copies (l : Layout) (src dst : SpaceId) (vs : List VirtPage) (cs : List Change)
    (l' : Layout) : Prop extends Adds l src dst vs cs l' where
  cells : ∀ v ∈ vs, l.page ⟨src, v⟩ ≠ none → l'.cell ⟨dst, v⟩ = l.cell ⟨src, v⟩
  twins : ∀ v ∈ vs, ∀ page, l.page ⟨src, v⟩ = some page →
    ∃ q, l'.page ⟨dst, v⟩ = some q ∧ page.Twins q

structure Resembles (l : Layout) (id : PageId) (page copy : Page) : Prop where
  there : l.page id = some page
  loaded : copy.loaded = false
  wellFormed : WellFormed id.page copy
  twins : page.Twins copy
  cell : l.cell id = some (copy.content.cell (Bytes.zero pageSize))

/-- A space was made in part and taken down again. -/
structure Undoes (l : Layout) (dst : SpaceId) (cs : List Change) (l' : Layout) :
    Prop where
  course : l.UnpinnedCourse cs l'
  within : ∀ c ∈ cs, c.target.space = dst
  kinds : ∀ c ∈ cs, c.Makes ∨ c.Quiet
  vacant : l'.Vacant dst
  drifts : ∀ id page, id.space ≠ dst → l.page id = some page →
    ∃ q, l'.page id = some q ∧ page.Drifts q

theorem Loads.fills (h : Loads id page w cs) : ∀ c ∈ cs, c.Fills id := by
  cases h with
  | hidden => simp
  | load => simp [Change.Fills]

theorem fills_snoc (hcs : ∀ c ∈ cs, c.Fills id) : ∀ c ∈ cs ++ [.fill id b], c.Fills id := by
  intro c hc
  rcases List.mem_append.mp hc with hc | hc
  · exact hcs c hc
  · rw [List.mem_singleton.mp hc]
    rfl

theorem page_forget (l : Layout) (id : PageId) :
    (l.forget id).page = Function.update l.page id none := rfl

theorem drifts_of_forget (h : ∀ k page, k ≠ id → l.page k = some page →
    ∃ q, l'.page k = some q ∧ page.Drifts q) : (l.forget id).Drifts l' := by
  intro k page hpage
  rw [page_forget] at hpage
  by_cases hk : k = id
  · rw [hk, Function.update_self] at hpage
    cases hpage
  · rw [Function.update_of_ne hk] at hpage
    exact h k page hk hpage

theorem Drifts.of_forget (h : l.Drifts l') (id : PageId) : (l.forget id).Drifts l' :=
  drifts_of_forget fun k page _ => h k page

theorem Drifts.forget (h : l.Drifts l') (id : PageId) : (l.forget id).Drifts (l'.forget id) := by
  refine drifts_of_forget fun k page hk hpage => ?_
  obtain ⟨q, hq, hd⟩ := h k page hpage
  exact ⟨q, (Function.update_of_ne hk ..).trans hq, hd⟩

theorem Brings.drifts (h : l.Brings id page f p c cs l') : (l.forget id).Drifts l' :=
  drifts_of_forget fun k q hk hq => ⟨q, by rw [h.pages, Function.update_of_ne hk, hq], .refl q⟩

theorem segment?_forget {o : PageId} (ho : o ≠ id) : (l.forget id).segment? o = l.segment? o := by
  rw [Layout.segment?, page_forget, Function.update_of_ne ho]
  rfl

theorem Drifts.segment? (h : l.Drifts l') {g : Segment} (hg : l.segment? id = some g) :
    l'.segment? id = some g := by
  obtain ⟨page, hpage, hg⟩ := Option.bind_eq_some_iff.mp hg
  obtain ⟨q, hq, hd⟩ := h id page hpage
  rw [Layout.segment?, hq, Option.bind_some, hd.segment?, hg]

theorem Sound.echoes (h : l.Sound) (hseg : ∀ g, page.segment? = some g → l.segment? id = some g) :
    l.Echoes page p ((l.held? id).getD (l.bytes p)) := by
  intro g hg
  obtain ⟨q, hq, hqg⟩ := Option.bind_eq_some_iff.mp (hseg g hg)
  cases hf : q.frame? with
  | some k =>
      obtain ⟨r, hr⟩ := h.exists_phys? (show l.home? id = some k by
        rw [home?, hq, Option.bind_some, hf])
      exact .inr ⟨id, q, k, r, ⟨hq, hf, hr⟩, hqg,
        by rw [held?_inFrame ⟨hq, hf, hr⟩, Option.getD_some]⟩
  | none =>
      have hslot : l.slot? id = none := by
        rw [slot?, hq, Option.bind_some]
        cases hc : q.content <;> simp_all [Page.segment?, Page.slot?]
      left
      simp only [held?, home?, hq, Option.bind_some, hf, hslot, Option.getD_none]

theorem Adds.nil (hu : l.Unpinned) (src dst : SpaceId) (vs : List VirtPage) :
    l.Adds src dst vs [] l :=
  ⟨.refl hu, by simp, by simp, by simp, .of_eq rfl⟩

theorem Adds.cell_other (h : l.Adds src dst vs cs l') (hs : l.Sound) (id : PageId)
    (hid : id.space = dst → id.page ∈ vs → l.page id ≠ none) : l'.cell id = l.cell id := by
  apply cell_of_course_other hs h.course.course
  intro c hc
  obtain ⟨hd, hv, hn⟩ := h.new c hc
  rintro rfl
  exact hid hd hv hn

theorem Adds.page_eq_none (h : l.Adds src dst vs cs l') {id : PageId} (hid : l'.page id = none) :
    l.page id = none := by
  by_contra hne
  obtain ⟨page, hpage⟩ := Option.ne_none_iff_exists'.mp hne
  obtain ⟨q, hq, -⟩ := h.drifts id page hpage
  rw [hid] at hq
  cases hq

theorem Adds.trans (hs : l.Sound) (hne : src ≠ dst) (h : l.Adds src dst vs cs l')
    (h' : l'.Adds src dst ws ds l'') : l.Adds src dst (vs ++ ws) (cs ++ ds) l'' := by
  refine ⟨h.course.trans h'.course, fun c hc => ?_, fun o p hc => ?_, fun c hc => ?_,
    h.drifts.trans h'.drifts⟩
  · rcases List.mem_append.mp hc with hc | hc
    · obtain ⟨hd, hv, hn⟩ := h.new c hc
      exact ⟨hd, List.mem_append_left _ hv, hn⟩
    · obtain ⟨hd, hv, hn⟩ := h'.new c hc
      exact ⟨hd, List.mem_append_right _ hv, h.page_eq_none hn⟩
  · rcases List.mem_append.mp hc with hc | hc
    · exact h.spans o p hc
    · obtain ⟨q, hq, hspan⟩ := h'.spans o p hc
      have hcell := h.cell_other hs ⟨src, o.page⟩ fun hd => absurd hd hne
      have hsome : l.page ⟨src, o.page⟩ ≠ none := by
        rw [ne_eq, ← cell_eq_none, ← hcell, cell_eq_none, hq]
        exact Option.some_ne_none q
      obtain ⟨page, hpage⟩ := Option.ne_none_iff_exists'.mp hsome
      obtain ⟨r, hr, hd⟩ := h.drifts _ page hpage
      obtain rfl : q = r := Option.some.inj (hq.symm.trans hr)
      exact ⟨page, hpage, hspan.trans hd.span⟩
  · exact (List.mem_append.mp hc).elim (h.makes c) (h'.makes c)

theorem Adds.mono (h : l.Adds src dst vs cs l') (hvs : ∀ v ∈ vs, v ∈ ws) :
    l.Adds src dst ws cs l' :=
  ⟨h.course, fun c hc => ⟨(h.new c hc).1, hvs _ (h.new c hc).2.1, (h.new c hc).2.2⟩, h.spans,
    h.makes, h.drifts⟩

theorem Adds.of_register {q : Page} (hq : l.page ⟨src, v⟩ = some q) (hspan : page.span = q.span)
    (hr : l.ChangeStep (.register ⟨dst, v⟩ page) l') (hcs : ∀ c ∈ cs, c.Fills ⟨dst, v⟩)
    (hw : l'.UnpinnedCourse cs l'') (hd : (l'.forget ⟨dst, v⟩).Drifts l'') :
    l.Adds src dst [v] (.register ⟨dst, v⟩ page :: cs) l'' := by
  obtain ⟨hnone, -⟩ := hr.of_register
  have hback : l.page = (l'.forget ⟨dst, v⟩).page := by
    cases hr with
    | register => rw [page_forget, Function.update_idem, ← hnone, Function.update_eq_self]
  refine ⟨⟨(Course.single hr).append hw.course, hw.unpinned⟩, fun c hc => ?_, fun o p hc => ?_,
    fun c hc => ?_, fun id q hq => hd id q (by rw [← hback, hq])⟩
  · have ht : c.target = ⟨dst, v⟩ := by
      rcases List.mem_cons.mp hc with rfl | hc
      · rfl
      · exact (hcs c hc).target
    rw [ht]
    exact ⟨rfl, by simp, hnone⟩
  · rcases List.mem_cons.mp hc with heq | hc
    · obtain ⟨rfl, rfl⟩ := Change.register.inj heq
      exact ⟨q, hq, hspan⟩
    · exact (hcs _ hc).elim
  · rcases List.mem_cons.mp hc with rfl | hc
    · trivial
    · exact (hcs c hc).makes

theorem Adds.copies (h : l.Adds src dst [v] cs l') {page q : Page}
    (hpage : l.page ⟨src, v⟩ = some page) (hq : l'.page ⟨dst, v⟩ = some q) (ht : page.Twins q)
    (hc : l'.cell ⟨dst, v⟩ = l.cell ⟨src, v⟩) : l.Copies src dst [v] cs l' := by
  refine ⟨h, fun w hw _ => ?_, fun w hw k hk => ?_⟩
  · rw [List.mem_singleton.mp hw]
    exact hc
  · rw [List.mem_singleton.mp hw] at hk ⊢
    obtain rfl : page = k := Option.some.inj (hpage.symm.trans hk)
    exact ⟨q, hq, ht⟩

theorem Copies.nil (hu : l.Unpinned) (hvs : ∀ v ∈ vs, l.page ⟨src, v⟩ = none) :
    l.Copies src dst vs [] l := by
  refine ⟨.nil hu .., fun v hv hn => absurd (hvs v hv) hn, fun v hv page hpage => ?_⟩
  rw [hvs v hv] at hpage
  cases hpage

theorem Copies.trans (hs : l.Sound) (hne : src ≠ dst) (hv : ∀ v ∈ vs, v ∉ ws)
    (h : l.Copies src dst vs cs l') (h' : l'.Copies src dst ws ds l'') :
    l.Copies src dst (vs ++ ws) (cs ++ ds) l'' := by
  have hs' := hs.of_course h.course.course
  have hsrc (v : VirtPage) : l'.cell ⟨src, v⟩ = l.cell ⟨src, v⟩ :=
    h.cell_other hs _ fun hd => absurd hd hne
  refine ⟨h.toAdds.trans hs hne h'.toAdds, fun v hmem hn => ?_, fun v hmem page hpage => ?_⟩
  · rcases List.mem_append.mp hmem with hmem | hmem
    · rw [h'.cell_other hs' _ fun _ hw => absurd hw (hv v hmem)]
      exact h.cells v hmem hn
    · rw [← hsrc]
      exact h'.cells v hmem fun hnone => hn (h.page_eq_none hnone)
  · rcases List.mem_append.mp hmem with hmem | hmem
    · obtain ⟨q, hq, ht⟩ := h.twins v hmem page hpage
      obtain ⟨r, hr, hd⟩ := h'.drifts _ q hq
      exact ⟨r, hr, ht.drifts hd⟩
    · obtain ⟨q, hq, hd⟩ := h.drifts _ page hpage
      obtain ⟨r, hr, ht⟩ := h'.twins v hmem q hq
      exact ⟨r, hr, hd.twins ht⟩

end Layout

namespace Machine

variable {m t : Machine} {id parent child : PageId} {page copy : Page} {p : PhysPage}
  {src dst : SpaceId} {v : VirtPage} {vs : List VirtPage}

/-- Only a page in a slot can fail to be read, which leaves its first sectors. -/
theorem copyContent_ends (hs : m.layout.Sound) (hr : Ram.InRange m.layout.capacity p) :
    Ends (copyContent id p) m
      (fun _ t => t.layout = { m.layout with
        bytes := Function.update m.layout.bytes p
          ((m.layout.held? id).getD (m.layout.bytes p)) })
      (fun e t => (∃ k, e = .errno k) ∧ m.layout.slot? id ≠ none ∧
        ∃ b i, m.layout.held? id = some b ∧ i < sectorsPerPage ∧ t.layout = { m.layout with
          bytes := Function.update m.layout.bytes p
            (Swap.overlay i b (m.layout.bytes p)) }) := by
  have hsame (h : m.layout.held? id = none) : m.layout = { m.layout with
      bytes := Function.update m.layout.bytes p
        ((m.layout.held? id).getD (m.layout.bytes p)) } := by
    rw [h, Option.getD_none, Function.update_eq_self]
  simp only [copyContent, ends_bind, ends_get]
  cases hpage : m.page? id with
  | none =>
      have hpage' : m.layout.page id = none := hpage
      exact hsame (by simp [Layout.held?, Layout.home?, Layout.slot?, hpage'])
  | some page =>
      have hpage' : m.layout.page id = some page := hpage
      cases hf : page.frame? with
      | some f =>
          have hhome : m.layout.home? id = some f := by
            rw [Layout.home?, hpage', Option.bind_some, hf]
          obtain ⟨q, hq⟩ := hs.exists_phys? hhome
          obtain ⟨fr, hfr, rfl⟩ := Option.map_eq_some_iff.mp hq
          simp only [hf, ends_bind]
          rw [ends_frame hfr, ends_readFrame (hs.inRange hq), ends_writeFrame hr, layout_store m hr,
            Layout.held?_inFrame ⟨hpage', hf, hq⟩]
          rfl
      | none =>
          have hhome : m.layout.home? id = none := by
            rw [Layout.home?, hpage', Option.bind_some, hf]
          cases hc : page.content with
          | unloaded kind loader span =>
              simp only [hf, hc, ends_pure]
              exact hsame (by simp [Layout.held?, hhome, Layout.slot?, hpage', Page.slot?, hc])
          | file g span dirty =>
              simp only [hf, hc, ends_pure]
              exact hsame (by simp [Layout.held?, hhome, Layout.slot?, hpage', Page.slot?, hc])
          | anon slot =>
              obtain ⟨s, rfl⟩ := (hs.coherent hpage').slot_of_idle hf hc
              have hslot : m.layout.slot? id = some s := by
                simp [Layout.slot?, hpage', Page.slot?, hc]
              have hused := hs.test_slot hslot
              have hheld : m.layout.held? id = some (m.layout.stored s) := by
                simp only [Layout.held?, hhome, hslot]
              simp only [hf, hc, hheld]
              refine inFrame_ends (Q := fun l => l = _) (E := fun e l => (∃ k, e = .errno k) ∧
                m.layout.slot? id ≠ none ∧ ∃ b i, some (m.layout.stored s) = some b ∧
                  i < sectorsPerPage ∧ l = { m.layout with
                    bytes := Function.update m.layout.bytes p
                      (Swap.overlay i b (m.layout.bytes p)) }) hr ?_
              refine (onSwapPage_read_ends
                (hs.addressable (Swap.Bitmap.lt_of_test hused)) hused).mono ?_ ?_
              · rintro _ ⟨t, b⟩ ⟨ht, hl, rfl⟩
                exact ⟨ht, by rw [hl]; rfl⟩
              · rintro e ⟨t, b⟩ ⟨he, ht, hl, i, hi, rfl⟩
                exact ⟨ht, he, by simp [hslot], _, i, rfl, hi, by rw [hl]; rfl⟩

theorem copyResident_ends (hs : m.layout.Sound) (hu : m.layout.Unpinned) (hne : parent ≠ child)
    (hpage : m.layout.page child = some page) (hn : page.frame? = none)
    (hseg : ∀ g, page.segment? = some g → m.layout.segment? parent = some g) :
    Ends (copyResident parent child) m
      (fun _ t => ∃ f c cs b w, page.content.Enters c ∧
        t.layout.page child = some { page with frame? := some f, content := c } ∧
        Layout.Loads child page w cs ∧ m.layout.UnpinnedCourse (cs ++ [.fill child b]) t.layout ∧
        (m.layout.forget child).Drifts t.layout ∧
        ∀ b', t.layout.held? parent = some b' → b' = b)
      (fun e t => m.layout.Expects e ∧ ∃ cs, (∀ c ∈ cs, c.Fills child) ∧
        m.layout.UnpinnedCourse cs t.layout ∧ (m.layout.forget child).Drifts t.layout) := by
  have hget : m.page? child = some page := hpage
  simp only [copyResident, ends_bind, ends_get, hget]
  apply (occupy_ends hs hu hpage hn).mono
  swap
  · intro e t h
    obtain ⟨he, v, h⟩ := h
    have ha := h.aborted hu
    exact ⟨he, [], by simp, ha.unpinnedCourse, ha.idle.drifts.of_forget child⟩
  rintro ⟨f, p⟩ t ⟨l₁, c, cs, ha, hb⟩
  have hcourse := Layout.Course.after ha.reach hb.course
  have hst := hs.of_course hcourse
  have hin := hb.inFrame ha.spare.1
  have hdrifts : (m.layout.forget child).Drifts t.layout :=
    (ha.idle.drifts.forget child).trans hb.drifts
  have hfill {b : PageBytes}
      (he : t.layout.Echoes { page with frame? := some f, content := c } p b) :
      m.layout.UnpinnedCourse (cs ++ [.fill child b]) { t.layout with
        bytes := Function.update t.layout.bytes p b
        frames := t.layout.frames.unpin f } :=
    ⟨(hcourse.snoc (.fill child _ f p b hin he)).tail (.single (.unpin f)),
      Layout.unpinned_unpin (hb.pinned ha.pinned)⟩
  have hsegt (g : Segment)
      (hg : ({ page with frame? := some f, content := c } : Page).segment? = some g) :
      t.layout.segment? parent = some g := by
    rw [hb.enters.segment?] at hg
    refine hdrifts.segment? ?_
    rw [Layout.segment?_forget hne]
    exact hseg g hg
  rw [ends_ensuring]
  simp only [ends_modify]
  apply (copyContent_ends hst (hst.inRange hin.2.2)).mono
  · intro _ t' hl
    rw [layout_onFrames, hl]
    refine ⟨f, c, cs, _, _, hb.enters, hin.1, hb.loads, hfill (hst.echoes hsegt), hdrifts,
      fun b' hb' => ?_⟩
    have hheld : Layout.held? { t.layout with
        bytes := Function.update t.layout.bytes p
          ((t.layout.held? parent).getD (t.layout.bytes p))
        frames := t.layout.frames.unpin f } parent = t.layout.held? parent :=
      Layout.held?_congr hst rfl (fun g q hg hq => ⟨(congrFun FrameTable.phys?_unpin g).trans hq,
        Layout.bytes_other hst hin.2.2 hq (Layout.home?_ne_of_ne hst hin.home?_eq hne hg)⟩)
      fun _ _ => rfl
    rw [← hheld, hb', Option.getD_some]
  · intro e t' h
    obtain ⟨⟨k, rfl⟩, hslot, b, i, -, -, hl⟩ := h
    have hecho : t.layout.Echoes { page with frame? := some f, content := c } p
        (Swap.overlay i b (t.layout.bytes p)) := by
      intro g hg
      obtain ⟨q, hq, hqg⟩ := Option.bind_eq_some_iff.mp (hsegt g hg)
      rw [Layout.slot?, hq, Option.bind_some] at hslot
      cases hqc : q.content <;> simp_all [Page.segment?, Page.slot?]
    rw [layout_onFrames, hl]
    exact ⟨trivial, _, Layout.fills_snoc hb.loads.fills, hfill hecho, hdrifts⟩

theorem copyRegistered_ends (hs : m.layout.Sound) (hu : m.layout.Unpinned) (hne : src ≠ dst)
    (hpage : m.layout.page ⟨src, v⟩ = some page)
    (hr : m.layout.ChangeStep (.register ⟨dst, v⟩ copy) t.layout) (hspan : copy.span = page.span)
    (hn : copy.frame? = none)
    (hseg : ∀ g, copy.segment? = some g → m.layout.segment? ⟨src, v⟩ = some g) :
    Ends (copyResident ⟨src, v⟩ ⟨dst, v⟩) t
      (fun _ u => ∃ f c cs b w, copy.content.Enters c ∧
        u.layout.page ⟨dst, v⟩ = some { copy with frame? := some f, content := c } ∧
        Layout.Loads ⟨dst, v⟩ copy w cs ∧
        m.layout.Adds src dst [v] (.register ⟨dst, v⟩ copy :: (cs ++ [.fill ⟨dst, v⟩ b])) u.layout ∧
        ∀ b', u.layout.held? ⟨src, v⟩ = some b' → b' = b)
      (fun e u => m.layout.Expects e ∧ ∃ cs, m.layout.Adds src dst [v] cs u.layout) := by
  obtain ⟨-, -, hcopy, hpin⟩ := hr.of_register
  have hsrc : (⟨src, v⟩ : PageId) ≠ ⟨dst, v⟩ := by simp [hne]
  have hsegt (g : Segment) (hg : copy.segment? = some g) :
      t.layout.segment? ⟨src, v⟩ = some g := by
    rw [Layout.segment?_of_register hr, Function.update_of_ne hsrc]
    exact hseg g hg
  apply (copyResident_ends (hs.of_step hr) (hpin hu) hsrc hcopy hn hsegt).mono
  · intro _ u h
    obtain ⟨f, c, cs, b, w, he, hc, hloads, hw, hd, hb⟩ := h
    exact ⟨f, c, cs, b, w, he, hc, hloads,
      .of_register hpage hspan hr (Layout.fills_snoc hloads.fills) hw hd, hb⟩
  · intro e u h
    obtain ⟨he, cs, hcs, hw, hd⟩ := h
    exact ⟨he.congr (Layout.capacity_of_step hr), _, .of_register hpage hspan hr hcs hw hd⟩

theorem registerCopy_ends (hs : m.layout.Sound) (hu : m.layout.Unpinned)
    (hc : m.layout.Resembles ⟨src, v⟩ page copy) (dst : SpaceId) (n : Nat) :
    Ends (do register ⟨dst, v⟩ copy; demandHead ⟨dst, v⟩ n : Step Machine Unit) m
      (fun _ t => ∃ cs, m.layout.Copies src dst [v] cs t.layout)
      (fun e t => m.layout.Expects e ∧ ∃ cs, m.layout.Adds src dst [v] cs t.layout) := by
  have hh : Layout.WellFormed v copy := hc.wellFormed
  simp only [ends_bind]
  apply (register_ends hc.loaded hh).mono
  · intro _ t hr
    obtain ⟨-, -, hpage, hpin⟩ := hr.of_register
    have hdrifts : t.layout.Drifts t.layout := .of_eq rfl
    have hadd : m.layout.Adds src dst [v] [.register ⟨dst, v⟩ copy] t.layout :=
      .of_register hc.there hc.twins.kind_span.2 hr (by simp) (.refl (hpin hu))
        (hdrifts.of_forget _)
    rw [ends_demandHead (canHead_of_unloaded hpage hc.loaded)]
    refine ⟨_, hadd.copies hc.there hpage hc.twins ?_⟩
    rw [Layout.cell_of_step hs hr, Change.apply, Function.update_self, hc.cell]
  · intro e t h
    obtain ⟨⟨k, rfl⟩, hl⟩ := h
    rw [hl]
    exact ⟨trivial, [], .nil hu ..⟩

theorem copyAnon_ends (hs : m.layout.Sound) (hu : m.layout.Unpinned) (hne : src ≠ dst)
    {slot : Option Slot} (hpage : m.layout.page ⟨src, v⟩ = some page)
    (hcont : page.content = .anon slot) :
    Ends (do
        register ⟨dst, v⟩ (.unloaded page.writable .anon none 0)
        copyResident ⟨src, v⟩ ⟨dst, v⟩ : Step Machine Unit) m
      (fun _ t => ∃ cs, m.layout.Copies src dst [v] cs t.layout)
      (fun e t => m.layout.Expects e ∧ ∃ cs, m.layout.Adds src dst [v] cs t.layout) := by
  rw [ends_bind]
  apply (register_ends rfl (Layout.wellFormed_unloaded ..)).mono
  · intro _ t hr
    have hspan : page.span = 0 := by rw [Page.span, hcont]
    refine (copyRegistered_ends hs hu hne hpage hr hspan.symm rfl
      (by rintro _ ⟨⟩)).mono ?_ fun e u h => h
    intro _ u h
    obtain ⟨f, c, cs, b, w, he, hpage', hloads, hadd, hb⟩ := h
    have hsu := hs.of_course hadd.course.course
    have hcell := Layout.cell_eq page hpage
    have hsrc : u.layout.cell ⟨src, v⟩ = m.layout.cell ⟨src, v⟩ :=
      hadd.cell_other hs _ fun hd => absurd hd hne
    have hbytes : m.layout.cell ⟨src, v⟩ = some (.bytes b) := by
      rw [hcont] at hcell
      rw [hcell, ← hb _ (Layout.held?_of_cell hsu (hsrc.trans hcell))]
      rfl
    have htwins : page.Twins { writable := page.writable, frame? := some f, content := c } := by
      refine ⟨rfl, ?_⟩
      rw [hcont]
      cases he with
      | load => exact .drifts (.anon _ _)
    refine ⟨_, hadd.copies hpage hpage' htwins ?_⟩
    rw [hbytes, Layout.cell_of_course hs hadd.course.course]
    rcases hloads with ⟨hnot⟩ | ⟨loader, span, b', -, -⟩
    · exact absurd rfl (hnot none 0)
    · simp [Change.apply, Cell.modify]
  · intro e t h
    obtain ⟨⟨k, rfl⟩, hl⟩ := h
    rw [hl]
    exact ⟨trivial, [], .nil hu ..⟩

theorem copyFile_ends (hs : m.layout.Sound) (hu : m.layout.Unpinned) (hne : src ≠ dst)
    {g : Segment} {span : Nat} {dirty : Bool} (hpage : m.layout.page ⟨src, v⟩ = some page)
    (hcont : page.content = .file g span dirty) :
    Ends (do
        register ⟨dst, v⟩ (.unloaded page.writable .file (some (.segment g)) span)
        demandHead ⟨dst, v⟩ span
        copyResident ⟨src, v⟩ ⟨dst, v⟩ : Step Machine Unit) m
      (fun _ t => ∃ cs, m.layout.Copies src dst [v] cs t.layout)
      (fun e t => m.layout.Expects e ∧ ∃ cs, m.layout.Adds src dst [v] cs t.layout) := by
  have hh : Layout.WellFormed v (.unloaded page.writable .file (some (.segment g)) span) :=
    (hs.pages _ page hpage).unload hcont _
  simp only [ends_bind]
  apply (register_ends rfl hh).mono
  · intro _ t hr
    rw [ends_demandHead (canHead_of_unloaded hr.of_register.2.2.1 rfl)]
    have hspan : page.span = span := by rw [Page.span, hcont]
    refine (copyRegistered_ends hs hu hne hpage hr hspan.symm rfl ?_).mono ?_ fun e u h => h
    · rintro _ ⟨⟩
      rw [Layout.segment?, hpage, Option.bind_some, Page.segment?, hcont]
    · intro _ u h
      obtain ⟨f, c, cs, b, w, he, hpage', hloads, hadd, -⟩ := h
      have hcell := Layout.cell_eq page hpage
      have htwins : page.Twins
          { writable := page.writable, frame? := some f, content := c } := by
        refine ⟨rfl, ?_⟩
        rw [hcont]
        cases he with
        | first loader span g' hg =>
            obtain rfl : g = g' := Option.some.inj hg
            exact .drifts (.file _ _ _ _)
      refine ⟨_, hadd.copies hpage hpage' htwins ?_⟩
      rw [hcell, hcont, Layout.cell_of_course hs hadd.course.course]
      cases hloads with
      | hidden => simp [Change.apply, Cell.modify, Content.cell]
      | load loader n b' hload => cases hload
  · intro e t h
    obtain ⟨⟨k, rfl⟩, hl⟩ := h
    rw [hl]
    exact ⟨trivial, [], .nil hu ..⟩

theorem copyPage_ends (hs : m.layout.Sound) (hu : m.layout.Unpinned) (hne : src ≠ dst) :
    Ends (copyPage src dst v) m (fun _ t => ∃ cs, m.layout.Copies src dst [v] cs t.layout)
      (fun e t => m.layout.Expects e ∧ ∃ cs, m.layout.Adds src dst [v] cs t.layout) := by
  simp only [copyPage, ends_bind, ends_get]
  cases hget : m.page? ⟨src, v⟩ with
  | none =>
      have hnone : m.layout.page ⟨src, v⟩ = none := hget
      exact ⟨[], .nil hu (by simp [hnone])⟩
  | some page =>
      have hpage : m.layout.page ⟨src, v⟩ = some page := hget
      have hcell := Layout.cell_eq page hpage
      have hh := hs.pages _ page hpage
      cases hcont : page.content with
      | unloaded kind loader span =>
          have hc : m.layout.Resembles ⟨src, v⟩ page page := by
            refine ⟨hpage, by rw [Page.loaded, hcont], hh, ⟨rfl, .drifts (.refl _)⟩, ?_⟩
            rw [hcell, hcont]
            cases kind <;> rfl
          simp only [hcont, ← hh.coherent.eq_unloaded hcont]
          exact registerCopy_ends hs hu hc dst span
      | anon slot =>
          simp only [hcont]
          exact copyAnon_ends hs hu hne hpage hcont
      | file g span dirty =>
          simp only [hcont]
          split
          case isTrue => exact copyFile_ends hs hu hne hpage hcont
          case isFalse =>
              have hc : m.layout.Resembles ⟨src, v⟩ page
                  (.unloaded page.writable .file (some (.segment g)) span) := by
                refine ⟨hpage, rfl, hh.unload hcont _, ⟨rfl, hcont ▸ .lazy g span dirty⟩, ?_⟩
                rw [hcell, hcont]
                rfl
              have h := registerCopy_ends hs hu hc dst span
              simp only [ends_bind] at h
              simpa only [ends_bind, ends_pure] using h

theorem copyPages_ends (hs : m.layout.Sound) (hu : m.layout.Unpinned) (hne : src ≠ dst)
    (hvs : vs.Nodup) :
    Ends (copyPages src dst vs) m (fun _ t => ∃ cs, m.layout.Copies src dst vs cs t.layout)
      (fun e t => m.layout.Expects e ∧ ∃ cs, m.layout.Adds src dst vs cs t.layout) := by
  induction vs generalizing m with
  | nil => exact ⟨[], .nil hu (by simp)⟩
  | cons v vs ih =>
      obtain ⟨hv, hvs⟩ := List.nodup_cons.mp hvs
      simp only [copyPages, ends_bind]
      apply (copyPage_ends hs hu hne).mono
      · intro _ t h
        obtain ⟨cs, h⟩ := h
        apply (ih (hs.of_course h.course.course) h.course.unpinned hvs).mono
        · intro _ t' h
          obtain ⟨ds, h'⟩ := h
          exact ⟨_, h.trans hs hne (by simpa using hv) h'⟩
        · intro e t' h
          obtain ⟨he, ds, h'⟩ := h
          exact ⟨he.congr (Layout.capacity_of_course h.course.course), _, h.toAdds.trans hs hne h'⟩
      · intro e t h
        obtain ⟨he, cs, h⟩ := h
        exact ⟨he, cs, h.mono (by simp)⟩

theorem copyInOrder_ends (hs : m.layout.Sound) (hu : m.layout.Unpinned) (hne : src ≠ dst)
    (hvs : vs.Nodup) :
    Ends (copyInOrder src dst vs) m (fun _ t => ∃ cs, m.layout.Copies src dst vs cs t.layout)
      (fun e t => m.layout.Expects e ∧ ∃ cs, m.layout.Adds src dst vs cs t.layout) := by
  simp only [copyInOrder, ends_bind, ends_get, ends_note]
  refine (copyPages_ends hs hu hne hvs).mono ?_ fun e t h => h
  intro _ t h
  obtain ⟨cs, h⟩ := h
  rw [layout_emit _ rfl]
  exact ⟨cs, h⟩

theorem dropInOrder_undoes {l : Layout} {cs : List Change} {order : List VirtPage} (hl : l.Sound)
    (h : l.Adds src dst vs cs m.layout) (ho : order.Perm (m.pages dst).keys) :
    Ends (do killInOrder dst order; modify (setSpace dst default) : Step Machine Unit) m
      (fun _ t => ∃ ds, Layout.Undoes l dst ds t.layout) (fun _ _ => False) := by
  refine (dropInOrder_ends (hl.of_course h.course.course) h.course.unpinned ho).mono ?_
    fun _ _ h => h
  intro _ t h
  obtain ⟨ds, hds, hw, hp⟩ := h
  refine ⟨cs ++ ds, h.course.trans hw, fun c hc => ?_, fun c hc => ?_,
    fun v => by rw [hp]; exact if_pos rfl, fun id page hid hpage => ?_⟩
  · rcases List.mem_append.mp hc with hc | hc
    · exact (h.new c hc).1
    · obtain ⟨v, rfl⟩ := hds c hc
      rfl
  · rcases List.mem_append.mp hc with hc | hc
    · exact .inl (h.makes c hc)
    · obtain ⟨v, rfl⟩ := hds c hc
      exact .inr trivial
  · rw [hp]
    simp only [if_neg hid]
    exact h.drifts id page hpage

theorem drop_undoes {l : Layout} {cs : List Change} (hl : l.Sound)
    (h : l.Adds src dst vs cs m.layout) :
    Ends (drop dst) m (fun _ t => ∃ ds, Layout.Undoes l dst ds t.layout) (fun _ _ => False) :=
  ends_drop.mpr (dropInOrder_undoes hl h (.refl _))

theorem forkInOrder_ends (hs : m.layout.Sound) (hu : m.layout.Unpinned) (hne : src ≠ dst)
    (hvs : vs.Nodup) (hv : m.layout.Vacant dst) (refusals : Trap) :
    Ends (forkInOrder src dst refusals vs) m
      (fun _ t => ∃ cs, m.layout.Copies src dst vs cs t.layout)
      (fun e t => m.layout.Expects e ∧ ∃ cs, Layout.Undoes m.layout dst cs t.layout) := by
  have hl := layout_create hs hv refusals
  simp only [forkInOrder, ends_bind, ends_modify, ends_onFailure]
  have h := copyInOrder_ends (m := m.create dst refusals) (by rw [hl]; exact hs)
    (by rw [hl]; exact hu)
    hne hvs
  rw [hl] at h
  apply h.mono (fun _ t h => h)
  intro e t h
  obtain ⟨he, cs, h⟩ := h
  refine (drop_undoes hs h).mono ?_ fun _ _ h => h.elim
  intro _ t' h
  obtain ⟨ds, hd⟩ := h
  exact ⟨he, ds, hd⟩

end Machine

end Pager
