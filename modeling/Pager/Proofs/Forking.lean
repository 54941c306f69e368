import Pager.Proofs.Invariance

namespace Pager

open Step

theorem Page.Twins.eq_of_unloaded {p q : Page} (h : p.Twins q) (hp : p.Coherent)
    (hq : q.Coherent) (hl : p.loaded = false) : q = p := by
  have hf := hp.frame?_of_unloaded hl
  obtain ⟨w, f, c⟩ := p
  obtain ⟨w', f', d⟩ := q
  obtain ⟨hw, hc⟩ := h
  obtain rfl : w' = w := hw
  obtain rfl : f = none := hf
  cases hc with
  | drifts hc =>
      cases hc with
      | unloaded => rw [hq.eq_unloaded rfl]
      | anon | file => cases hl
  | lazy => cases hl

theorem Page.content_of_currentType {p : Page} (h : p.currentType = .anon) :
    ∃ slot, p.content = .anon slot := by
  obtain ⟨w, f, c⟩ := p
  cases c with
  | unloaded => cases h
  | anon slot => exact ⟨slot, rfl⟩
  | file => cases h

theorem Page.Twins.anon {p q : Page} {slot : Option Slot} (h : p.Twins q)
    (hc : p.content = .anon slot) : ∃ slot', q.content = .anon slot' := by
  obtain ⟨-, ht⟩ := h
  rw [hc] at ht
  generalize q.content = d at ht
  cases ht with
  | drifts ht =>
      cases ht with
      | anon => exact ⟨_, rfl⟩

def Page.Shares (p q : Page) : Prop :=
  (∃ f, p.frame? = some f ∧ q.frame? = some f) ∨ ∃ s, p.slot? = some s ∧ q.slot? = some s

namespace Machine

variable {m t : Machine} {id : PageId} {page : Page} {s parent child : SpaceId}
  {cs : List Change} {vs : List VirtPage}

/-- The bytes of a page, in its frame or in its slot. -/
def contents? (m : Machine) (id : PageId) : Option PageBytes :=
  (m.page? id).bind fun page =>
    match page.frame?, page.slot? with
    | some f, _ => (m.frames.get? f).map (fun fr => m.ram.bytes fr.page)
    | none, some s => some (m.swap.stored s)
    | none, none => none

/-- The pages of all spaces but one are still there, and private memory has the
same bytes, wherever it is now. -/
structure Spared (m : Machine) (s : SpaceId) (t : Machine) : Prop where
  registered : ∀ id, id.space ≠ s → (t.page? id).isSome = (m.page? id).isSome
  drifts : ∀ id page, id.space ≠ s → m.page? id = some page →
    ∃ q, t.page? id = some q ∧ page.Drifts q
  contents : ∀ id page, id.space ≠ s → m.page? id = some page → page.currentType = .anon →
    (m.contents? id).isSome ∧ t.contents? id = m.contents? id

/-- What `child` has of `parent` after it was made a copy of it. -/
structure Forked (m : Machine) (parent child : SpaceId) (t : Machine) : Prop where
  registered : ∀ v, (t.page? ⟨child, v⟩).isSome = (m.page? ⟨parent, v⟩).isSome
  same : ∀ v page copy, m.page? ⟨parent, v⟩ = some page → t.page? ⟨child, v⟩ = some copy →
    copy.writable = page.writable ∧ copy.type = page.type ∧ copy.span = page.span
  unloaded : ∀ v page, m.page? ⟨parent, v⟩ = some page → page.currentType = .uninit →
    t.page? ⟨child, v⟩ = some page
  anon : ∀ v page, m.page? ⟨parent, v⟩ = some page → page.currentType = .anon →
    ∃ copy slot, t.page? ⟨child, v⟩ = some copy ∧ copy.content = .anon slot ∧
      (∀ id q, t.page? id = some q → q.Shares copy → id = ⟨child, v⟩) ∧
      (m.contents? ⟨parent, v⟩).isSome ∧ t.contents? ⟨child, v⟩ = m.contents? ⟨parent, v⟩
  spared : m.Spared child t

theorem contents?_eq_held? (m : Machine) (id : PageId) : m.contents? id = m.layout.held? id := by
  cases hpage : m.page? id with
  | none =>
      have hpage' : m.layout.page id = none := hpage
      simp [contents?, Layout.held?, Layout.home?, Layout.slot?, hpage, hpage']
  | some page =>
      have hpage' : m.layout.page id = some page := hpage
      simp only [contents?, Layout.held?, Layout.home?, Layout.slot?, hpage, hpage',
        Option.bind_some]
      cases page.frame? with
      | none => cases page.slot? <;> rfl
      | some f => exact (Option.map_map m.ram.bytes Frame.page (m.frames.get? f)).symm

theorem contents?_of_bytes {b : PageBytes} (hs : m.layout.Sound)
    (h : m.layout.cell id = some (.bytes b)) : m.contents? id = some b := by
  rw [contents?_eq_held?, Layout.held?_of_cell hs h]

theorem exists_bytes (hpage : m.page? id = some page) (hk : page.currentType = .anon) :
    ∃ b, m.layout.cell id = some (.bytes b) := by
  obtain ⟨slot, hcont⟩ := page.content_of_currentType hk
  have hcell := Layout.cell_eq page (show m.layout.page id = some page from hpage)
  rw [hcont] at hcell
  exact ⟨_, hcell⟩

theorem contents?_of_cell {o : PageId} (hs : m.layout.Sound) (ht : t.layout.Sound)
    (hpage : m.page? id = some page) (hk : page.currentType = .anon)
    (hc : t.layout.cell o = m.layout.cell id) :
    (m.contents? id).isSome ∧ t.contents? o = m.contents? id := by
  obtain ⟨b, hb⟩ := exists_bytes hpage hk
  rw [contents?_of_bytes hs hb, contents?_of_bytes ht (hc.trans hb)]
  exact ⟨rfl, rfl⟩

theorem spared_of_course (hs : m.layout.Sound) (hc : m.layout.Course cs t.layout)
    (hcs : ∀ c ∈ cs, c.target.space = s)
    (hd : ∀ id page, id.space ≠ s → m.layout.page id = some page →
      ∃ q, t.layout.page id = some q ∧ page.Drifts q) : m.Spared s t := by
  have hcell (id : PageId) (hid : id.space ≠ s) : t.layout.cell id = m.layout.cell id := by
    apply Layout.cell_of_course_other hs hc
    rintro c hmem rfl
    exact hid (hcs c hmem)
  refine ⟨fun id hid => ?_, hd, fun id page hid hpage hk =>
    contents?_of_cell hs (hs.of_course hc) hpage hk (hcell id hid)⟩
  have hnone : t.page? id = none ↔ m.page? id = none := by
    change t.layout.page id = none ↔ m.layout.page id = none
    rw [← Layout.cell_eq_none, ← Layout.cell_eq_none, hcell id hid]
  rw [Bool.eq_iff_iff, Option.isSome_iff_ne_none, Option.isSome_iff_ne_none]
  exact not_congr hnone

theorem eq_of_shares (hs : m.layout.Sound) {id o : PageId} {p q : Page}
    (hp : m.page? id = some p) (hq : m.page? o = some q) (h : p.Shares q) : id = o := by
  have hpage : m.layout.page id = some p := hp
  have hpage' : m.layout.page o = some q := hq
  rcases h with ⟨f, hf, hf'⟩ | ⟨s, hs', hs''⟩
  · have hid := (hs.owners f id).mpr (by rw [Layout.home?, hpage, Option.bind_some, hf])
    have ho := (hs.owners f o).mpr (by rw [Layout.home?, hpage', Option.bind_some, hf'])
    exact Option.some.inj (hid.symm.trans ho)
  · exact hs.slots.inj id o s (by rw [Layout.slot?, hpage, Option.bind_some, hs'])
      (by rw [Layout.slot?, hpage', Option.bind_some, hs''])

theorem forked_of_copies (hs : m.layout.Sound) (hv : m.layout.Vacant child)
    (hvs : ∀ v, v ∈ vs ↔ m.layout.page ⟨parent, v⟩ ≠ none)
    (h : m.layout.Copies parent child vs cs t.layout) : m.Forked parent child t := by
  have ht := hs.of_course h.course.course
  have htwin (v : VirtPage) (page : Page) (hpage : m.page? ⟨parent, v⟩ = some page) :
      ∃ copy, t.page? ⟨child, v⟩ = some copy ∧ page.Twins copy :=
    h.twins v ((hvs v).mpr (Option.ne_none_iff_exists'.mpr ⟨page, hpage⟩)) page hpage
  have hsame (v : VirtPage) (page copy : Page) (hpage : m.page? ⟨parent, v⟩ = some page)
      (hcopy : t.page? ⟨child, v⟩ = some copy) : page.Twins copy := by
    obtain ⟨q, hq, htw⟩ := htwin v page hpage
    rwa [Option.some.inj (hcopy.symm.trans hq)]
  refine ⟨fun v => ?_, fun v page copy hpage hcopy => ?_, fun v page hpage hk => ?_,
    fun v page hpage hk => ?_, spared_of_course hs h.course.course (fun c hc => (h.new c hc).1)
      fun id page _ hpage => h.drifts id page hpage⟩
  · cases hpage : m.page? ⟨parent, v⟩ with
    | none =>
        have hnot : v ∉ vs := fun hmem => (hvs v).mp hmem hpage
        have hcell := h.cell_other hs ⟨child, v⟩ fun _ hmem => absurd hmem hnot
        have hnone : t.page? ⟨child, v⟩ = none :=
          Layout.cell_eq_none.mp (hcell.trans (Layout.cell_eq_none.mpr (hv v)))
        rw [hnone]
    | some page =>
        obtain ⟨copy, hcopy, -⟩ := htwin v page hpage
        rw [hcopy]
        rfl
  · have htw := hsame v page copy hpage hcopy
    obtain ⟨hkind, hspan⟩ := htw.kind_span
    exact ⟨htw.writable, by rw [Page.type, Page.type, hkind], hspan⟩
  · have hl : page.loaded = false := by
      cases hl : page.loaded with
      | false => rfl
      | true =>
          rw [Page.currentType, hl, if_pos rfl] at hk
          cases hkind : page.kind <;> simp [hkind, Kind.type] at hk
    obtain ⟨copy, hcopy, htw⟩ := htwin v page hpage
    rw [hcopy, htw.eq_of_unloaded (hs.coherent hpage) (ht.coherent hcopy) hl]
  · obtain ⟨slot, hcont⟩ := page.content_of_currentType hk
    obtain ⟨copy, hcopy, htw⟩ := htwin v page hpage
    obtain ⟨slot', hslot⟩ := htw.anon hcont
    have hne : m.layout.page ⟨parent, v⟩ ≠ none := Option.ne_none_iff_exists'.mpr ⟨page, hpage⟩
    obtain ⟨hsome, heq⟩ := contents?_of_cell hs ht hpage hk (h.cells v ((hvs v).mpr hne) hne)
    exact ⟨copy, slot', hcopy, hslot, fun id q hq hsh => eq_of_shares ht hq hcopy hsh, hsome, heq⟩

end Machine

/-- A fork that succeeds makes a true copy, in whatever order it walks the pages
and whichever pages had to leave their frames meanwhile. -/
theorem Reachable.fork_copies {m t : Machine} (h : Reachable m) {parent child : SpaceId}
    {refusals : Trap} {order : List VirtPage}
    (ha : (Op.fork parent child refusals order).Admissible m)
    (hx : Machine.forkInOrder parent child refusals order m = .ok () t) :
    m.Forked parent child t := by
  obtain ⟨hs, hu⟩ := h.sound
  obtain ⟨hne, hv, ho⟩ := ha
  have hends := Machine.forkInOrder_ends hs hu hne (Machine.nodup_of_perm_keys ho) hv refusals
  obtain ⟨cs, hcopies⟩ := hends.of_ok hx
  exact Machine.forked_of_copies hs hv (Op.mem_order ho) hcopies

theorem fork_copies_two_pages_one_frame :
    ∃ m t, m = ((Op.write 0 ⟨4096⟩ [1, 2, 3] ⟨0⟩).run ((Op.alloc 0 .anon ⟨8192⟩ true none).run
        ((Op.alloc 0 .anon ⟨4096⟩ true none).run
          (.boot {} (.ofCapacity 1) (some (.ofCount 32)) [])).2).2).2 ∧
      Machine.forkInOrder 0 1 {} [⟨2⟩, ⟨1⟩] m = .ok () t ∧ m.Forked 0 1 t := by
  have h₀ : Starts (.boot {} (.ofCapacity 1) (some (.ofCount 32)) []) :=
    ⟨{}, 1, some (.ofCount 32), [], by decide, by rintro d ⟨⟩; decide, rfl⟩
  have hr : Runs (.boot {} (.ofCapacity 1) (some (.ofCount 32)) [])
      [(.alloc 0 .anon ⟨4096⟩ true none, _), (.alloc 0 .anon ⟨8192⟩ true none, _),
        (.write 0 ⟨4096⟩ [1, 2, 3] ⟨0⟩, _)] _ :=
    .cons trivial (.cons trivial (.cons trivial (.nil _)))
  have h : Reachable ((Op.write 0 ⟨4096⟩ [1, 2, 3] ⟨0⟩).run
      ((Op.alloc 0 .anon ⟨8192⟩ true none).run ((Op.alloc 0 .anon ⟨4096⟩ true none).run
        (.boot {} (.ofCapacity 1) (some (.ofCount 32)) [])).2).2).2 := ⟨_, _, h₀, hr⟩
  generalize hm : ((Op.write 0 ⟨4096⟩ [1, 2, 3] ⟨0⟩).run
      ((Op.alloc 0 .anon ⟨8192⟩ true none).run ((Op.alloc 0 .anon ⟨4096⟩ true none).run
        (.boot {} (.ofCapacity 1) (some (.ofCount 32)) [])).2).2).2 = m at h
  have hkeys : (m.pages 0).keys = [⟨1⟩, ⟨2⟩] := by rw [← hm]; decide +kernel
  have hchild : (m.pages 1).keys = [] := by rw [← hm]; decide +kernel
  have hok : (Machine.perform (Machine.forkInOrder 0 1 {} [⟨2⟩, ⟨1⟩]) m).1.failure = none := by
    rw [← hm]
    decide +kernel
  obtain ⟨_, hx⟩ := Machine.exists_ok_of_perform hok
  have ha : (Op.fork 0 1 {} [⟨2⟩, ⟨1⟩]).Admissible m :=
    ⟨by decide, Machine.page?_eq_none_of_keys hchild, by rw [hkeys]; exact .swap ..⟩
  exact ⟨m, _, rfl, hx, Reachable.fork_copies h ha hx⟩

end Pager
