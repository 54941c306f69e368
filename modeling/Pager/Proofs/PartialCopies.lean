import Pager.Proofs.Evolving
import Pager.Proofs.Forking

namespace Pager

open Step

structure Page.Alike (p q : Page) : Prop where
  writable : q.writable = p.writable
  type : q.type = p.type
  span : q.span = p.span

theorem Page.Continues.alike {p q : Page} (h : p.Continues q) : p.Alike q :=
  ⟨h.writable, congrArg Kind.type h.kind, h.span⟩

theorem Page.Twins.alike {p q : Page} (h : p.Twins q) : p.Alike q :=
  ⟨h.writable, congrArg Kind.type h.kind_span.1, h.kind_span.2⟩

theorem Page.Alike.trans {p q r : Page} (h : p.Alike q) (h' : q.Alike r) : p.Alike r :=
  ⟨h'.writable.trans h.writable, h'.type.trans h.type, h'.span.trans h.span⟩

/-- Of the bytes that a page should have it has none, or those of the first sectors
with zeros behind them. -/
inductive Cell.Truncates : Cell → Cell → Prop
  | bare (b : PageBytes) : Truncates (.bytes b) (.pending none)
  | cut (b : PageBytes) (i : Nat) (hi : i < sectorsPerPage) :
      Truncates (.bytes b) (.bytes (Bytes.clearFrom b (i * sectorSize)))

theorem Swap.overlay_zero (i : Nat) (b : PageBytes) :
    overlay i b (Bytes.zero pageSize) = Bytes.clearFrom b (i * sectorSize) := by
  have hdiv (j : Nat) : j / sectorSize < i ↔ j < i * sectorSize :=
    Nat.div_lt_iff_lt_mul (by decide)
  refine Bytes.ext_getElem? fun j hj => ?_
  rw [getElem?_overlay _ _ _ hj, Bytes.clearFrom, Bytes.getElem?_splice, List.length_replicate,
    Bytes.getElem?_zero hj]
  by_cases h : j / sectorSize < i
  · have := (hdiv j).mp h
    rw [if_pos h, if_neg (by omega)]
  · have := (hdiv j).not.mp h
    rw [if_neg h, if_pos (by omega), List.getElem?_replicate, if_pos (by omega)]

namespace Layout

variable {l l₁ l' : Layout} {src dst : SpaceId} {v : VirtPage} {vs : List VirtPage}

inductive Left (l : Layout) (src dst : SpaceId) (v : VirtPage) (l' : Layout) : Prop
  | refused (h : l.page ⟨dst, v⟩ ≠ none)
  | whole (page q : Page) (hpage : l.page ⟨src, v⟩ = some page) (hq : l'.page ⟨dst, v⟩ = some q)
      (ha : page.Alike q) (hc : l'.cell ⟨dst, v⟩ = l.cell ⟨src, v⟩)
  | part (page q : Page) (x y : Cell) (hpage : l.page ⟨src, v⟩ = some page)
      (hq : l'.page ⟨dst, v⟩ = some q) (ha : page.Alike q) (hx : l.cell ⟨src, v⟩ = some x)
      (hy : l'.cell ⟨dst, v⟩ = some y) (hxy : x.Truncates y)

end Layout

namespace Machine

variable {m t : Machine} {parent child : PageId} {page : Page} {src dst : SpaceId}
  {v : VirtPage} {vs : List VirtPage} {b : PageBytes}

theorem copyResident_truncates (hs : m.layout.Sound) (hu : m.layout.Unpinned)
    (hne : parent ≠ child) {writable : Bool}
    (hpage : m.layout.page child = some (.unloaded writable .anon none 0))
    (hb : m.layout.cell parent = some (.bytes b)) :
    Ends (copyResident parent child) m (fun _ _ => True)
      (fun _ t => ∃ y, t.layout.cell child = some y ∧ (Cell.bytes b).Truncates y) := by
  have hget : m.page? child = some (.unloaded writable .anon none 0) := hpage
  simp only [copyResident, ends_bind, ends_get, hget]
  refine (occupy_ends hs hu hpage rfl).mono ?_ ?_
  swap
  · rintro e t ⟨-, w, h⟩
    refine ⟨_, ?_, .bare b⟩
    rw [Layout.cell_of_rearranged hs (h.aborted hu).reach, Layout.cell_eq _ hpage]
    rfl
  rintro ⟨f, p⟩ t ⟨l₁, c, cs, ha, hbr⟩
  have hcourse := Layout.Course.after ha.reach hbr.course
  have hst := hs.of_course hcourse
  have hin := hbr.inFrame ha.spare.1
  have henters : c = .anon none := by
    cases hbr.enters with
    | load => rfl
  rw [ends_ensuring]
  simp only [ends_modify]
  refine (copyContent_ends hst (hst.inRange hin.2.2)).mono (fun _ _ _ => trivial) ?_
  rintro e u ⟨-, -, b', i, hheld, hi, hl⟩
  have hparent : t.layout.cell parent = some (.bytes b) := by
    refine (Layout.cell_of_course_other hs hcourse fun c hc => ?_).trans hb
    rw [(hbr.loads.fills c hc).target]
    exact hne
  obtain rfl : b = b' := Option.some.inj ((Layout.held?_of_cell hst hparent).symm.trans hheld)
  have hzero : t.layout.bytes p = Bytes.zero pageSize := by
    have hchild := Layout.cell_inFrame hin
    rw [Layout.cell_of_course hs hcourse, henters] at hchild
    rcases hbr.loads with ⟨hnot⟩ | ⟨loader, span, z, hc, hz⟩
    · exact absurd rfl (hnot none 0)
    · obtain ⟨-, rfl, -⟩ := Content.unloaded.inj hc
      obtain rfl : z = Bytes.zero pageSize := hz
      have hload : Function.update m.layout.cell child (some (.bytes (Bytes.zero pageSize))) child =
          some (.bytes (t.layout.bytes p)) := hchild
      rw [Function.update_self] at hload
      exact (Cell.bytes.inj (Option.some.inj hload)).symm
  have hleft : Layout.InFrame { t.layout with
      bytes := Function.update t.layout.bytes p (Bytes.clearFrom b (i * sectorSize))
      frames := t.layout.frames.unpin f } child
        { writable := writable, frame? := some f, content := c } f p :=
    ⟨hin.1, hin.2.1, (congrFun FrameTable.phys?_unpin f).trans hin.2.2⟩
  refine ⟨_, ?_, .cut b i hi⟩
  rw [layout_onFrames, hl, hzero, Swap.overlay_zero]
  have hcell := Layout.cell_inFrame hleft
  simp only [henters, Function.update_self] at hcell
  exact hcell

theorem copyResident_continues (hs : m.layout.Sound) (hu : m.layout.Unpinned)
    (hne : parent ≠ child) (hpage : m.layout.page child = some page) (hn : page.frame? = none)
    (hseg : ∀ g, page.segment? = some g → m.layout.segment? parent = some g) :
    Ends (copyResident parent child) m (fun _ _ => True)
      (fun _ t => t.layout.Sound ∧ ∃ q, t.layout.page child = some q ∧ page.Continues q) := by
  refine (copyResident_ends hs hu hne hpage hn hseg).mono (fun _ _ _ => trivial) ?_
  rintro e t ⟨-, cs, hcs, hw, -⟩
  refine ⟨hs.of_course hw.course, Layout.continues_of_course hs hw.course (fun c hc => ?_) hpage⟩
  have := (hcs c hc).makes
  cases c <;> trivial

theorem copyAnon_left (hs : m.layout.Sound) (hu : m.layout.Unpinned) (hne : src ≠ dst)
    {slot : Option Slot} (hn : m.layout.page ⟨dst, v⟩ = none)
    (hpage : m.layout.page ⟨src, v⟩ = some page) (hcont : page.content = .anon slot) :
    Ends (do
        register ⟨dst, v⟩ (.unloaded page.writable .anon none 0)
        copyResident ⟨src, v⟩ ⟨dst, v⟩ : Step Machine Unit) m (fun _ _ => True)
      (fun _ t => m.layout.Left src dst v t.layout) := by
  have hids : (⟨src, v⟩ : PageId) ≠ ⟨dst, v⟩ := by simp [hne]
  have hr := setPage_step (.unloaded page.writable .anon none 0) hn rfl
    (Layout.wellFormed_unloaded ..)
  obtain ⟨-, -, hcopy, hpin⟩ := hr.of_register
  have hcell := Layout.cell_eq page hpage
  rw [hcont] at hcell
  have hsrc := (congrFun (Layout.cell_of_step hs hr) ⟨src, v⟩).trans
    ((Change.apply_other hids).trans hcell)
  rw [ends_bind, ends_register hn]
  refine ((copyResident_truncates (hs.of_step hr) (hpin hu) hids hcopy hsrc).and
    (copyResident_continues (hs.of_step hr) (hpin hu) hids hcopy rfl (by rintro _ ⟨⟩))).mono
    (fun _ _ _ => trivial) ?_
  rintro e t ⟨⟨y, hy, htr⟩, -, q, hq, hcont'⟩
  have hlike : page.Alike (.unloaded page.writable .anon none 0) :=
    ⟨rfl, by simp [Page.type, Page.kind, hcont], by simp [Page.span, hcont]⟩
  exact .part page q _ y hpage hq (hlike.trans hcont'.alike) hcell hy htr

theorem copyFile_left (hs : m.layout.Sound) (hu : m.layout.Unpinned) (hne : src ≠ dst)
    {g : Segment} {span : Nat} {dirty : Bool} (hn : m.layout.page ⟨dst, v⟩ = none)
    (hpage : m.layout.page ⟨src, v⟩ = some page) (hcont : page.content = .file g span dirty) :
    Ends (do
        register ⟨dst, v⟩ (.unloaded page.writable .file (some (.segment g)) span)
        demandHead ⟨dst, v⟩ span
        if page.resident then copyResident ⟨src, v⟩ ⟨dst, v⟩ : Step Machine Unit) m
      (fun _ _ => True) (fun _ t => m.layout.Left src dst v t.layout) := by
  have hids : (⟨src, v⟩ : PageId) ≠ ⟨dst, v⟩ := by simp [hne]
  have hr := setPage_step (.unloaded page.writable .file (some (.segment g)) span) hn rfl
    ((hs.pages _ page hpage).unload hcont _)
  obtain ⟨-, -, hcopy, hpin⟩ := hr.of_register
  simp only [ends_bind]
  rw [ends_register hn, ends_demandHead (canHead_of_unloaded hcopy rfl)]
  split
  case isFalse => trivial
  case isTrue =>
      have hseg (g' : Segment) (hg : (some g : Option Segment) = some g') :
          (m.setPage ⟨dst, v⟩ (.unloaded page.writable .file
            (some (.segment g)) span)).layout.segment? ⟨src, v⟩ = some g' := by
        rw [Layout.segment?_of_register hr, Function.update_of_ne hids, Layout.segment?,
          hpage, Option.bind_some, Page.segment?, hcont]
        exact hg
      refine (copyResident_continues (hs.of_step hr) (hpin hu) hids hcopy rfl hseg).mono
        (fun _ _ _ => trivial) ?_
      rintro e t ⟨-, q, hq, hcont'⟩
      have hlike : page.Alike (.unloaded page.writable .file (some (.segment g)) span) :=
        ⟨rfl, by simp [Page.type, Page.kind, hcont], by simp [Page.span, hcont]⟩
      refine .whole page q hpage hq (hlike.trans hcont'.alike) ?_
      rw [Layout.cell_file q hq hcont'.kind, Layout.cell_eq page hpage, hcont, hcont'.span]
      rfl

theorem copyPage_left (hs : m.layout.Sound) (hu : m.layout.Unpinned) (hne : src ≠ dst) :
    Ends (copyPage src dst v) m (fun _ _ => True)
      (fun _ t => m.layout.Left src dst v t.layout) := by
  by_cases hn : m.layout.page ⟨dst, v⟩ = none
  swap
  · exact (ends_self _ m).mono (fun _ _ _ => trivial) fun _ _ _ => .refused hn
  simp only [copyPage, ends_bind, ends_get]
  cases hget : m.page? ⟨src, v⟩ with
  | none => trivial
  | some page =>
      have hpage : m.layout.page ⟨src, v⟩ = some page := hget
      cases hcont : page.content with
      | unloaded kind loader span =>
          have hl : page.loaded = false := by rw [Page.loaded, hcont]
          have hh : Layout.WellFormed v page := hs.pages _ page hpage
          have hr := setPage_step page hn hl hh
          simp only [hcont, ends_bind, ← hh.coherent.eq_unloaded hcont]
          rw [ends_register hn, ends_demandHead (canHead_of_unloaded hr.of_register.2.2.1 hl)]
          trivial
      | anon slot =>
          simp only [hcont]
          exact copyAnon_left hs hu hne hn hpage hcont
      | file g span dirty =>
          simp only [hcont]
          exact copyFile_left hs hu hne hn hpage hcont

theorem copyPages_left (hs : m.layout.Sound) (hu : m.layout.Unpinned) (hne : src ≠ dst)
    (hvs : vs.Nodup) :
    Ends (copyPages src dst vs) m (fun _ _ => True)
      (fun _ t => ∃ done v rest l cs ds, vs = done ++ v :: rest ∧
        m.layout.Copies src dst done cs l ∧ l.Adds src dst [v] ds t.layout ∧
        l.Left src dst v t.layout) := by
  induction vs generalizing m with
  | nil => trivial
  | cons v vs ih =>
      obtain ⟨hv, hvs⟩ := List.nodup_cons.mp hvs
      rw [copyPages, ends_bind]
      refine ((copyPage_ends hs hu hne).and (copyPage_left hs hu hne)).mono ?_ ?_
      · rintro _ t ⟨⟨cs, h⟩, -⟩
        refine (ih (hs.of_course h.course.course) h.course.unpinned hvs).mono
          (fun _ _ _ => trivial) ?_
        rintro e u ⟨done, w, rest, l, ds, es, rfl, hc, ha, hl⟩
        refine ⟨v :: done, w, rest, l, cs ++ ds, es, rfl, ?_, ha, hl⟩
        refine h.trans hs hne (fun k hk hmem => ?_) hc
        rw [List.mem_singleton.mp hk] at hmem
        exact hv (List.mem_append_left _ hmem)
      · rintro e t ⟨⟨-, cs, h⟩, hl⟩
        exact ⟨[], v, vs, m.layout, [], cs, rfl, .nil hu (by simp), h, hl⟩

theorem copyInOrder_left (hs : m.layout.Sound) (hu : m.layout.Unpinned) (hne : src ≠ dst)
    (hvs : vs.Nodup) :
    Ends (copyInOrder src dst vs) m (fun _ _ => True)
      (fun _ t => ∃ done v rest l cs ds, vs = done ++ v :: rest ∧
        m.layout.Copies src dst done cs l ∧ l.Adds src dst [v] ds t.layout ∧
        l.Left src dst v t.layout) := by
  rw [copyInOrder, ends_bind]
  exact (copyPages_left hs hu hne hvs).mono (fun _ _ _ => trivial) fun _ _ h => h

/-- All pages are there that were there, with what they held. The new ones are
pages of `dst`, each made like the page of `src` of its number and, unless that
is `w`, with what it held. -/
structure CopiedInto (m : Machine) (src dst : SpaceId) (w : Option VirtPage) (t : Machine) :
    Prop where
  kept : ∀ id page, m.page? id = some page → ∃ q, t.page? id = some q ∧ page.Alike q
  cells : ∀ id, m.page? id ≠ none → t.layout.cell id = m.layout.cell id
  gained : ∀ id q, m.page? id = none → t.page? id = some q →
    id.space = dst ∧ ∃ page, m.page? ⟨src, id.page⟩ = some page ∧ page.Alike q
  faithful : ∀ id, m.page? id = none → t.page? id ≠ none → w ≠ some id.page →
    t.layout.cell id = m.layout.cell ⟨src, id.page⟩

theorem kept_of_drifts {l : Layout} (h : m.layout.Drifts l) (id : PageId) (page : Page)
    (hpage : m.page? id = some page) : ∃ q, l.page id = some q ∧ page.Alike q := by
  obtain ⟨q, hq, hd⟩ := h id page hpage
  exact ⟨q, hq, hd.continues.alike⟩

theorem gained_of_adds {cs : List Change} (hs : m.layout.Sound)
    (h : m.layout.Adds src dst vs cs t.layout) {id : PageId} (hid : m.page? id = none)
    (hq : t.page? id ≠ none) : id.space = dst ∧ id.page ∈ vs := by
  obtain ⟨q, hq⟩ := Option.ne_none_iff_exists'.mp hq
  obtain ⟨page, hmem, -⟩ := Layout.registered_of_course hs h.course.course hid hq
  obtain ⟨hspace, hv, -⟩ := h.new _ hmem
  exact ⟨hspace, hv⟩

theorem copiedInto_of_copies {cs : List Change} (hs : m.layout.Sound)
    (h : m.layout.Copies src dst vs cs t.layout) (hvs : ∀ v ∈ vs, m.page? ⟨src, v⟩ ≠ none) :
    m.CopiedInto src dst none t where
  kept := kept_of_drifts h.drifts
  cells id hid := h.cell_other hs id fun _ _ => hid
  gained id q hid hq := by
    obtain ⟨hspace, hv⟩ := gained_of_adds hs h.toAdds hid (by simp [hq])
    obtain ⟨page, hpage⟩ := Option.ne_none_iff_exists'.mp (hvs _ hv)
    obtain ⟨r, hr, ht⟩ := h.twins _ hv page hpage
    subst hspace
    obtain rfl : q = r := Option.some.inj (hq.symm.trans hr)
    exact ⟨rfl, page, hpage, ht.alike⟩
  faithful id hid hq _ := by
    obtain ⟨hspace, hv⟩ := gained_of_adds hs h.toAdds hid hq
    subst hspace
    exact h.cells _ hv (hvs _ hv)

theorem copiedInto_of_try {done : List VirtPage} {l : Layout} {cs ds : List Change}
    {w : Option VirtPage} (hs : m.layout.Sound) (hne : src ≠ dst) (hv : v ∉ done)
    (hvs : ∀ u ∈ done, m.page? ⟨src, u⟩ ≠ none) (hc : m.layout.Copies src dst done cs l)
    (ha : l.Adds src dst [v] ds t.layout)
    (hl : l.page ⟨dst, v⟩ = none → ∃ page q, l.page ⟨src, v⟩ = some page ∧
      t.layout.page ⟨dst, v⟩ = some q ∧ page.Alike q ∧
      (w ≠ some v → t.layout.cell ⟨dst, v⟩ = l.cell ⟨src, v⟩)) :
    m.CopiedInto src dst w t := by
  have hall := hc.toAdds.trans hs hne ha
  have hsl := hs.of_course hc.course.course
  have hsrc : l.cell ⟨src, v⟩ = m.layout.cell ⟨src, v⟩ :=
    hc.cell_other hs _ fun hd => absurd hd hne
  have hdone (u : VirtPage) (hu : u ∈ done) : t.layout.cell ⟨dst, u⟩ = l.cell ⟨dst, u⟩ := by
    refine ha.cell_other hsl _ fun _ hmem => ?_
    obtain rfl : u = v := List.mem_singleton.mp hmem
    exact absurd hu hv
  have hfresh (hid : m.page? ⟨dst, v⟩ = none) : l.page ⟨dst, v⟩ = none := by
    rw [← Layout.cell_eq_none,
      hc.cell_other hs _ fun _ hmem => absurd hmem hv, Layout.cell_eq_none]
    exact hid
  refine ⟨kept_of_drifts hall.drifts, fun id hid => hall.cell_other hs id fun _ _ => hid,
    fun id q hid hq => ?_, fun id hid hq hw => ?_⟩
  · obtain ⟨hspace, hmem⟩ := gained_of_adds hs hall hid (by simp [hq])
    obtain ⟨d, u⟩ := id
    obtain rfl : d = dst := hspace
    refine ⟨rfl, ?_⟩
    rcases List.mem_append.mp hmem with hu | hu
    · obtain ⟨page, hpage⟩ := Option.ne_none_iff_exists'.mp (hvs u hu)
      obtain ⟨r, hr, ht⟩ := hc.twins u hu page hpage
      obtain ⟨q', hq', hd⟩ := ha.drifts _ r hr
      obtain rfl : q = q' := Option.some.inj (hq.symm.trans hq')
      exact ⟨page, hpage, (ht.drifts hd).alike⟩
    · obtain rfl : u = v := List.mem_singleton.mp hu
      obtain ⟨page, q', hpage, hq', halike, -⟩ := hl (hfresh hid)
      obtain rfl : q = q' := Option.some.inj (hq.symm.trans hq')
      obtain ⟨page', hpage'⟩ := Option.ne_none_iff_exists'.mp
        (show m.layout.page ⟨src, u⟩ ≠ none by
          rw [Ne, ← Layout.cell_eq_none, ← hsrc, Layout.cell_eq_none, hpage]
          exact Option.some_ne_none _)
      obtain ⟨r, hr, hd⟩ := hc.drifts _ page' hpage'
      obtain rfl : page = r := Option.some.inj (hpage.symm.trans hr)
      exact ⟨page', hpage', hd.continues.alike.trans halike⟩
  · obtain ⟨hspace, hmem⟩ := gained_of_adds hs hall hid hq
    obtain ⟨d, u⟩ := id
    obtain rfl : d = dst := hspace
    rcases List.mem_append.mp hmem with hu | hu
    · exact (hdone u hu).trans (hc.cells u hu (hvs u hu))
    · obtain rfl : u = v := List.mem_singleton.mp hu
      obtain ⟨page, q', -, -, -, hcell⟩ := hl (hfresh hid)
      exact (hcell hw).trans hsrc

theorem copiedInto_of_left {done : List VirtPage} {l : Layout} {cs ds : List Change}
    (hs : m.layout.Sound) (hne : src ≠ dst) (hv : v ∉ done)
    (hvs : ∀ u ∈ done, m.page? ⟨src, u⟩ ≠ none) (hc : m.layout.Copies src dst done cs l)
    (ha : l.Adds src dst [v] ds t.layout) (hl : l.Left src dst v t.layout) :
    ∃ w, m.CopiedInto src dst w t ∧ ∀ u, w = some u → ∃ x y,
      m.layout.cell ⟨src, u⟩ = some x ∧ t.layout.cell ⟨dst, u⟩ = some y ∧ x.Truncates y := by
  cases hl with
  | refused h =>
      exact ⟨none, copiedInto_of_try hs hne hv hvs hc ha fun hn => absurd hn h, by simp⟩
  | whole page q hpage hq halike hcell =>
      exact ⟨none, copiedInto_of_try hs hne hv hvs hc ha
        fun _ => ⟨page, q, hpage, hq, halike, fun _ => hcell⟩, by simp⟩
  | part page q x y hpage hq halike hx hy hxy =>
      refine ⟨some v, copiedInto_of_try hs hne hv hvs hc ha
        fun _ => ⟨page, q, hpage, hq, halike, fun hw => absurd rfl hw⟩, ?_⟩
      rintro _ ⟨⟩
      have hsrc : l.cell ⟨src, v⟩ = m.layout.cell ⟨src, v⟩ :=
        hc.cell_other hs _ fun hd => absurd hd hne
      exact ⟨x, y, hsrc ▸ hx, hy, hxy⟩

end Machine

open Machine in
/-- Copying the pages of a space into another one, which may have pages of its own,
changes none that is there. Each page that is gained holds what the page of its
number holds, except that an error leaves the page at which the walk stopped, if
it is one of private memory, without bytes or with the first of them only. -/
theorem Reachable.copy_leaves {m : Machine} (h : Reachable m) {src dst : SpaceId}
    {order : List VirtPage} (hne : src ≠ dst) (ho : order.Perm (m.pages src).keys) :
    (∀ t, copyInOrder src dst order m = .ok () t → m.CopiedInto src dst none t) ∧
    (∀ e t, copyInOrder src dst order m = .error (.errno e) t →
      ∃ w, m.CopiedInto src dst w t ∧ ∀ v, w = some v → ∃ x y,
        m.layout.cell ⟨src, v⟩ = some x ∧ t.layout.cell ⟨dst, v⟩ = some y ∧ x.Truncates y) := by
  obtain ⟨hs, hu⟩ := h.sound
  have hnd := nodup_of_perm_keys ho
  have hvs (v : VirtPage) (hv : v ∈ order) : m.page? ⟨src, v⟩ ≠ none := (Op.mem_order ho v).mp hv
  refine ⟨fun t hx => ?_, fun e t hx => ?_⟩
  · obtain ⟨cs, hc⟩ := (copyInOrder_ends hs hu hne hnd).of_ok hx
    exact copiedInto_of_copies hs hc hvs
  · obtain ⟨done, v, rest, l, cs, ds, rfl, hc, ha, hl⟩ :=
      (copyInOrder_left hs hu hne hnd).of_error hx
    have hv : v ∉ done := fun hmem => (List.disjoint_of_nodup_append hnd) hmem (by simp)
    exact copiedInto_of_left hs hne hv (fun u hu => hvs u (List.mem_append_left _ hu)) hc ha hl

theorem copy_leaves_empty_page :
    ∃ m t, m = [.alloc 0 .anon ⟨4096⟩ true none, .write 0 ⟨4096⟩ [170] ⟨0⟩,
        .alloc 2 .anon ⟨4096⟩ true none, .claim 2 ⟨4096⟩, .armDisk (.after 0 1) {}].foldl
          (fun m (op : Op) => (op.run m).2)
          (.boot {} (.ofCapacity 1) (some (.ofCount 32)) []) ∧
      Machine.copyInOrder 0 1 [⟨1⟩] m = .error (.errno .eio) t ∧
      ((Op.read 1 ⟨4096⟩ 1 ⟨0⟩).run t).1.bytes = [0] ∧
      ∃ w, m.CopiedInto 0 1 w t ∧ ∀ v, w = some v → ∃ x y,
        m.layout.cell ⟨0, v⟩ = some x ∧ t.layout.cell ⟨1, v⟩ = some y ∧ x.Truncates y := by
  have h₀ : Starts (.boot {} (.ofCapacity 1) (some (.ofCount 32)) []) :=
    ⟨{}, 1, some (.ofCount 32), [], by decide, by rintro d ⟨⟩; decide, rfl⟩
  have hr : Runs (.boot {} (.ofCapacity 1) (some (.ofCount 32)) [])
      [(.alloc 0 .anon ⟨4096⟩ true none, _), (.write 0 ⟨4096⟩ [170] ⟨0⟩, _),
        (.alloc 2 .anon ⟨4096⟩ true none, _), (.claim 2 ⟨4096⟩, _),
        (.armDisk (.after 0 1) {}, _)] _ :=
    .cons trivial (.cons trivial (.cons trivial (.cons trivial (.cons trivial (.nil _)))))
  have h : Reachable ([.alloc 0 .anon ⟨4096⟩ true none, .write 0 ⟨4096⟩ [170] ⟨0⟩,
      .alloc 2 .anon ⟨4096⟩ true none, .claim 2 ⟨4096⟩, .armDisk (.after 0 1) {}].foldl
        (fun m (op : Op) => (op.run m).2)
        (.boot {} (.ofCapacity 1) (some (.ofCount 32)) [])) := ⟨_, _, h₀, hr⟩
  generalize hm : [.alloc 0 .anon ⟨4096⟩ true none, .write 0 ⟨4096⟩ [170] ⟨0⟩,
    .alloc 2 .anon ⟨4096⟩ true none, .claim 2 ⟨4096⟩, .armDisk (.after 0 1) {}].foldl
      (fun m (op : Op) => (op.run m).2)
      (.boot {} (.ofCapacity 1) (some (.ofCount 32)) []) = m at h
  have hkeys : (m.pages 0).keys = [⟨1⟩] := by rw [← hm]; decide +kernel
  have herr : (Machine.perform (Machine.copyInOrder 0 1 [⟨1⟩]) m).1.failure =
      some (.errno .eio) := by
    rw [← hm]
    decide +kernel
  have hread : ((Op.read 1 ⟨4096⟩ 1 ⟨0⟩).run
      (Machine.perform (Machine.copyInOrder 0 1 [⟨1⟩]) m).2).1.bytes = [0] := by
    rw [← hm]
    decide +kernel
  obtain ⟨t, hx⟩ := Machine.exists_error_of_perform herr
  have ht : (Machine.perform (Machine.copyInOrder 0 1 [⟨1⟩]) m).2 = t := by
    rw [Machine.perform, hx]
  rw [ht] at hread
  exact ⟨m, t, rfl, hx, hread,
    (Reachable.copy_leaves h (by decide) (by rw [hkeys])).2 _ t hx⟩

end Pager
