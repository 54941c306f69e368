import Pager.Proofs.Holds
import Pager.Proofs.Invariance

namespace Pager

open Step

/-- The same page later in its life: it may have been loaded meanwhile. -/
structure Page.Continues (p q : Page) : Prop where
  writable : q.writable = p.writable
  kind : q.kind = p.kind
  span : q.span = p.span
  loaded : p.loaded = true → q.loaded = true

theorem Page.Continues.refl (p : Page) : p.Continues p := ⟨rfl, rfl, rfl, fun h => h⟩

theorem Page.Continues.trans {p q r : Page} (h : p.Continues q) (h' : q.Continues r) :
    p.Continues r :=
  ⟨h'.writable.trans h.writable, h'.kind.trans h.kind, h'.span.trans h.span,
    fun hp => h'.loaded (h.loaded hp)⟩

theorem Page.Drifts.continues {p q : Page} (h : p.Drifts q) : p.Continues q := by
  obtain ⟨w, f, c⟩ := p
  obtain ⟨w', f', d⟩ := q
  obtain ⟨hw, hc⟩ := h
  cases hc <;> exact ⟨hw, rfl, rfl, fun h => h⟩

theorem Page.continues_of_content {p q : Page} (hw : q.writable = p.writable)
    (hk : q.kind = p.kind) (hs : q.span = p.span) (hl : q.loaded = true) : p.Continues q :=
  ⟨hw, hk, hs, fun _ => hl⟩

namespace Layout

variable {l l' l'' : Layout} {id o : PageId} {page q : Page} {c : Change} {cs : List Change}

theorem rel_refl (o : Option Page) : Option.Rel Page.Continues o o := by
  cases o with
  | none => exact .none
  | some p => exact .some (.refl p)

theorem rel_of_update (o : PageId) (hpage : l.page id = some page)
    (h : l'.page = Function.update l.page id (some q)) (hq : page.Continues q) :
    Option.Rel Page.Continues (l.page o) (l'.page o) := by
  rw [h]
  by_cases ho : o = id
  · subst ho
    rw [hpage, Function.update_self]
    exact .some hq
  · rw [Function.update_of_ne ho]
    exact rel_refl _

theorem rel_of_hidden (hm : l.Hidden l') (o : PageId) :
    Option.Rel Page.Continues (l.page o) (l'.page o) := by
  cases hm with
  | saveAnon id page f p s hpage hf hc =>
      exact rel_of_update o hpage rfl (Page.continues_of_content rfl (by simp [Page.kind, hc])
        (by simp [Page.span, hc]) rfl)
  | saveFile id page f p g span dirty hpage hf hc =>
      exact rel_of_update o hpage rfl (Page.continues_of_content rfl (by simp [Page.kind, hc])
        (by simp [Page.span, hc]) rfl)
  | keepFile id page f p g span dirty k hpage hf hc =>
      exact rel_of_update o hpage rfl (Page.continues_of_content rfl (by simp [Page.kind, hc])
        (by simp [Page.span, hc]) rfl)
  | swapIn id page f p s hpage hn hc =>
      exact rel_of_update o hpage rfl (Page.continues_of_content rfl (by simp [Page.kind, hc])
        (by simp [Page.span, hc]) rfl)
  | readIn id page f p g hpage hn hg =>
      have hk := Page.kind_of_segment? hg
      have hcont : page.Continues
          { page with frame? := some f, content := .file g page.span false } :=
        ⟨rfl, hk.symm, rfl, fun _ => rfl⟩
      exact rel_of_update o hpage rfl hcont
  | _ => exact rel_refl _

theorem continues_of_rel {a b : Option Page} (h : Option.Rel Page.Continues a b) :
    (∀ p, a = some p → ∃ q, b = some q ∧ p.Continues q) ∧
      ∀ q, b = some q → ∃ p, a = some p ∧ p.Continues q := by
  cases h with
  | none => simp
  | some h => exact ⟨by rintro _ ⟨⟩; exact ⟨_, rfl, h⟩, by rintro _ ⟨⟩; exact ⟨_, rfl, h⟩⟩

theorem page_of_step (hm : l.ChangeStep c l') (ho : o ≠ c.target) : l'.page o = l.page o := by
  cases hm with
  | refresh | store | fill => rfl
  | register | load => exact Function.update_of_ne ho ..
  | destroyIdle | destroySlot | destroyFrame | destroyFile | destroyLost =>
      exact Function.update_of_ne ho ..

theorem continues_of_step (h : l.Sound) (hm : l.ChangeStep c l') (hc : c.Lasting)
    (hpage : l.page o = some page) : ∃ q, l'.page o = some q ∧ page.Continues q := by
  cases hm with
  | register id p hnone =>
      refine ⟨page, (Function.update_of_ne ?_ ..).trans hpage, .refl page⟩
      rintro rfl
      rw [hnone] at hpage
      cases hpage
  | load id p loader span f r b hp hn hcont =>
      have hk : p.kind = .anon := by rw [Page.kind, hcont]
      have hspan : p.span = 0 := (h.pages id p hp).anon hk
      refine (continues_of_rel (rel_of_update o hp rfl ?_)).1 page hpage
      exact Page.continues_of_content rfl hk.symm hspan.symm rfl
  | refresh | store | fill => exact ⟨page, hpage, .refl page⟩
  | destroyIdle | destroySlot | destroyFrame | destroyFile | destroyLost => exact hc.elim

theorem continues_of_course (h : l.Sound) (hm : l.Course cs l') (hcs : ∀ c ∈ cs, c.Lasting)
    (hpage : l.page o = some page) : ∃ q, l'.page o = some q ∧ page.Continues q := by
  refine (hm.preserves (P := fun k => k.Sound ∧ ∃ q, k.page o = some q ∧ page.Continues q)
    ⟨h, page, hpage, .refl page⟩ ?_ ?_).2
  · rintro a b hab ⟨ha, q, hq, hcont⟩
    obtain ⟨r, hr, hcont'⟩ := (continues_of_rel (rel_of_hidden hab o)).1 q hq
    exact ⟨ha.of_hidden hab, r, hr, hcont.trans hcont'⟩
  · rintro a b c hc hab ⟨ha, q, hq, hcont⟩
    obtain ⟨r, hr, hcont'⟩ := continues_of_step ha hab (hcs c hc) hq
    exact ⟨ha.of_step hab, r, hr, hcont.trans hcont'⟩

theorem continues_of_gone (h : l.Sound) (hm : l.Course cs l')
    (hcs : ∀ c ∈ cs, ∃ id, c = .destroy id) (hq : l'.page o = some q) :
    ∃ page, l.page o = some page ∧ page.Continues q := by
  refine (hm.preserves (P := fun k => k.Sound ∧
    ∀ q, k.page o = some q → ∃ page, l.page o = some page ∧ page.Continues q)
    ⟨h, fun q hq => ⟨q, hq, .refl q⟩⟩ ?_ ?_).2 q hq
  · rintro a b hab ⟨ha, hback⟩
    refine ⟨ha.of_hidden hab, fun q hq => ?_⟩
    obtain ⟨r, hr, hcont'⟩ := (continues_of_rel (rel_of_hidden hab o)).2 q hq
    obtain ⟨page, hpage, hcont⟩ := hback r hr
    exact ⟨page, hpage, hcont.trans hcont'⟩
  · rintro a b c hc hab ⟨ha, hback⟩
    refine ⟨ha.of_step hab, fun q hq => hback q ?_⟩
    obtain ⟨k, rfl⟩ := hcs c hc
    rw [← hq, page_of_step hab]
    rintro rfl
    have hnone : b.page o = none := by cases hab <;> exact Function.update_self ..
    rw [hq] at hnone
    cases hnone

theorem registered_of_course (h : l.Sound) (hm : l.Course cs l') (hpage : l.page o = none)
    (hq : l'.page o = some q) : ∃ page, .register o page ∈ cs ∧ page.Continues q := by
  refine (hm.preserves (P := fun k => k.Sound ∧
    ∀ q, k.page o = some q → ∃ page, .register o page ∈ cs ∧ page.Continues q)
    ⟨h, fun q hq => ?_⟩ ?_ ?_).2 q hq
  · rw [hpage] at hq
    cases hq
  · rintro a b hab ⟨ha, hreg⟩
    refine ⟨ha.of_hidden hab, fun q hq => ?_⟩
    obtain ⟨p, hp, hcont⟩ := (continues_of_rel (rel_of_hidden hab o)).2 q hq
    obtain ⟨page, hmem, hpage⟩ := hreg p hp
    exact ⟨page, hmem, hpage.trans hcont⟩
  · rintro a b c hc hab ⟨ha, hreg⟩
    refine ⟨ha.of_step hab, fun q hq => ?_⟩
    have hgoes (hlast : c.Lasting) (hsome : a.page o ≠ none) :
        ∃ page, .register o page ∈ cs ∧ page.Continues q := by
      obtain ⟨p, hp⟩ := Option.ne_none_iff_exists'.mp hsome
      obtain ⟨page, hmem, hpage⟩ := hreg p hp
      obtain ⟨r, hr, hcont⟩ := continues_of_step ha hab hlast hp
      obtain rfl : q = r := Option.some.inj (hq.symm.trans hr)
      exact ⟨page, hmem, hpage.trans hcont⟩
    by_cases ho : o = c.target
    · subst ho
      cases hab with
      | register id page =>
          have hnew : Function.update a.page id (some page) id = some q := hq
          rw [Function.update_self] at hnew
          exact ⟨page, hc, Option.some.inj hnew ▸ .refl page⟩
      | load id page _ _ _ _ _ hp => exact hgoes trivial (by simp [Change.target, hp])
      | refresh id page _ _ hin | store id page _ _ _ _ hin | fill id page _ _ _ hin =>
          exact hgoes trivial (by simp [Change.target, hin.1])
      | destroyIdle id | destroySlot id | destroyFrame id | destroyFile id | destroyLost id =>
          have hgone : Function.update a.page id none id = some q := hq
          rw [Function.update_self] at hgone
          cases hgone
    · rw [page_of_step hab ho] at hq
      exact hreg q hq

/-- What an operation may do to the pages: those that are there before and after
it go on, and new ones are among those that it is about. -/
structure Evolves (l : Layout) (R : PageId → Prop) (l' : Layout) : Prop where
  new : ∀ id, l.page id = none → l'.page id ≠ none → R id
  lives : ∀ id page q, l.page id = some page → l'.page id = some q → page.Continues q

namespace Evolves

variable {R : PageId → Prop} {dst : SpaceId}

theorem of_lasting (h : l.Sound) (hm : l.Course cs l') (hcs : ∀ c ∈ cs, c.Lasting)
    (hR : ∀ id page, .register id page ∈ cs → R id) : l.Evolves R l' where
  new id hnone hne := by
    obtain ⟨q, hq⟩ := Option.ne_none_iff_exists'.mp hne
    obtain ⟨page, hreg, -⟩ := registered_of_course h hm hnone hq
    exact hR id page hreg
  lives id page q hpage hq := by
    obtain ⟨r, hr, hcont⟩ := continues_of_course h hm hcs hpage
    rwa [← Option.some.inj (hr.symm.trans hq)]

theorem of_gone (h : l.Sound) (hm : l.Course cs l') (hcs : ∀ c ∈ cs, ∃ id, c = .destroy id) :
    l.Evolves R l' where
  new id hnone hne := by
    obtain ⟨q, hq⟩ := Option.ne_none_iff_exists'.mp hne
    obtain ⟨page, hpage, -⟩ := continues_of_gone h hm hcs hq
    rw [hnone] at hpage
    cases hpage
  lives id page q hpage hq := by
    obtain ⟨r, hr, hcont⟩ := continues_of_gone h hm hcs hq
    rwa [← Option.some.inj (hr.symm.trans hpage)]

theorem of_undoes (h : l.Sound) (hd : l.Undoes dst cs l') : l.Evolves R l' where
  new id hnone hne := by
    obtain ⟨q, hq⟩ := Option.ne_none_iff_exists'.mp hne
    obtain ⟨page, hreg, -⟩ := registered_of_course h hd.course.course hnone hq
    obtain rfl : id.space = dst := hd.within _ hreg
    exact absurd (hd.vacant id.page) hne
  lives id page q hpage hq := by
    have hne : id.space ≠ dst := by
      rintro rfl
      rw [show l'.page id = none from hd.vacant id.page] at hq
      cases hq
    obtain ⟨r, hr, hdrift⟩ := hd.drifts id page hne hpage
    obtain rfl : r = q := Option.some.inj (hr.symm.trans hq)
    exact hdrift.continues

end Evolves

theorem Loads.lasting {w : World} (h : Loads id page w cs) :
    ∀ c ∈ cs, c.Lasting ∧ ∀ o p, c ≠ .register o p := by
  cases h with
  | hidden => simp
  | load => simp [Change.Lasting]

variable {s : SpaceId} {a sp : VirtAddr} {w : World}

theorem Opens.lasting (h : l.Opens s a sp w cs) : (∀ c ∈ cs, c.Lasting) ∧
    ∀ o p, .register o p ∈ cs → o = ⟨s, a.page⟩ ∧ p = .stack ∧ l.config.growsStack a sp = true := by
  cases h with
  | there page _ hpage h =>
      exact ⟨fun c hc => (h.lasting c hc).1, fun o p hmem => absurd rfl ((h.lasting _ hmem).2 o p)⟩
  | grown cs hpage hg h =>
      refine ⟨fun c hc => ?_, fun o p hmem => ?_⟩
      · rcases List.mem_cons.mp hc with rfl | hc
        · trivial
        · exact (h.lasting c hc).1
      · rcases List.mem_cons.mp hmem with heq | hmem
        · obtain ⟨rfl, rfl⟩ := Change.register.inj heq
          exact ⟨rfl, rfl, hg⟩
        · exact absurd rfl ((h.lasting _ hmem).2 o p)

theorem Balks.lasting (h : l.Balks s a sp cs) : (∀ c ∈ cs, c.Lasting) ∧
    ∀ o p, .register o p ∈ cs → o = ⟨s, a.page⟩ ∧ p = .stack ∧ l.config.growsStack a sp = true := by
  cases h with
  | same => simp
  | grown hpage hg =>
      refine ⟨by simp [Change.Lasting], fun o p hmem => ?_⟩
      obtain ⟨rfl, rfl⟩ := Change.register.inj (List.mem_singleton.mp hmem)
      exact ⟨rfl, rfl, hg⟩

structure Grows (l : Layout) (s : SpaceId) (sp : VirtAddr) (cs : List Change) : Prop where
  lasting : ∀ c ∈ cs, c.Lasting
  grown : ∀ o p, .register o p ∈ cs →
    ∃ b : VirtAddr, o = ⟨s, b.page⟩ ∧ p = .stack ∧ l.config.growsStack b sp = true

theorem Grows.nil : l.Grows s sp [] := ⟨by simp, by simp⟩

theorem Grows.append {ds : List Change} (h : l.Grows s sp cs) (h' : l'.Grows s sp ds)
    (hc : l'.config = l.config) : l.Grows s sp (cs ++ ds) := by
  refine ⟨fun c hmem => ?_, fun o p hmem => ?_⟩
  · exact (List.mem_append.mp hmem).elim (h.lasting c) (h'.lasting c)
  · exact (List.mem_append.mp hmem).elim (h.grown o p) (hc ▸ h'.grown o p)

theorem Opens.grows (h : l.Opens s a sp w cs) : l.Grows s sp cs :=
  ⟨h.lasting.1, fun o p hmem => ⟨a, h.lasting.2 o p hmem⟩⟩

theorem Balks.grows (h : l.Balks s a sp cs) : l.Grows s sp cs :=
  ⟨h.lasting.1, fun o p hmem => ⟨a, h.lasting.2 o p hmem⟩⟩

theorem Grows.store (h : l.Grows s sp cs) (i : Nat) (bs : List UInt8) :
    l.Grows s sp (cs ++ [.store id i bs]) :=
  h.append ⟨by simp [Change.Lasting], by simp⟩ rfl

theorem Writes.grows {k : Nat} {data : List UInt8} {ps : List (Piece × World)}
    {e : Option Failure} (h : Writes s a sp k data ps e l l') (hu : l.Unpinned) :
    ∃ cs, l.UnpinnedCourse cs l' ∧ l.Grows s sp cs := by
  induction h with
  | done | overflow => exact ⟨[], .refl hu, .nil⟩
  | stops _ _ _ hb hw => exact ⟨_, hw, hb.grows⟩
  | piece _ _ _ ho hw _ ih =>
      obtain ⟨ds, hds, hg⟩ := ih hw.unpinned
      exact ⟨_, hw.trans hds, (ho.grows.store _ _).append hg (config_of_course hw.course)⟩

theorem Reads.grows {k len : Nat} {ws : List World} {bs : List UInt8} {e : Option Failure}
    (h : Reads s a sp k len ws bs e l l') (hu : l.Unpinned) :
    ∃ cs, l.UnpinnedCourse cs l' ∧ l.Grows s sp cs := by
  induction h with
  | done | overflow => exact ⟨[], .refl hu, .nil⟩
  | stops _ _ _ hb hw => exact ⟨_, hw, hb.grows⟩
  | piece _ _ _ ho hw _ _ ih =>
      obtain ⟨ds, hds, hg⟩ := ih hw.unpinned
      exact ⟨_, hw.trans hds, ho.grows.append hg (config_of_course hw.course)⟩

end Layout

namespace Machine

theorem toNat_page_add_le {c : Config} {a : VirtAddr} {len : Nat}
    (h : c.isUserRange a len = true) : a.page.toNat + pagesFor len ≤ wordBound := by
  have hp := a.toNat_page
  have hbase : c.kernelBase.toNat < wordBound := c.kernelBase.toNat_lt
  simp only [Config.isUserRange, Bool.and_eq_true, decide_eq_true_eq] at h
  simp only [pagesFor, pageSize, wordBound] at hp hbase ⊢
  omega

theorem span_mappedPages {c : Config} {a : VirtAddr} {d : Array UInt8} {len offset i : Nat}
    {writable : Bool} {file : FileId} (h : c.isUserRange a len = true) (hi : i < pagesFor len) :
    (mappedPages d len writable file offset i).span =
      if a.page.plus i = a.page then pagesFor len else 0 := by
  have hle := toNat_page_add_le h
  by_cases h0 : i = 0
  · subst h0
    rw [plus_zero, if_pos rfl]
    rfl
  · rw [if_neg fun he => h0 (plus_inj hle hi (by omega) (he.trans (plus_zero _).symm))]
    exact if_neg h0

theorem mmap_range {m : Machine} {s : SpaceId} {a : VirtAddr} {len offset : Nat} {writable : Bool}
    {file : FileId} :
    Ends (mmap s a len writable file offset) m
      (fun _ _ => a.aligned = true ∧ m.config.isUserRange a len = true) (fun _ _ => True) := by
  simp only [mmap, ends_bind, ends_get, ends_require, implies_true, and_true]
  intro hlen hrange _ _
  simp only [Bool.and_eq_true] at hlen
  iterate 6 refine (ends_self _ _).mono (fun _ _ _ => ?_) fun _ _ _ => trivial
  exact ⟨hlen.1.2, hrange⟩

theorem mmapDescriptor_range {m : Machine} {s : SpaceId} {a : VirtAddr} {len fd offset : Nat}
    {writable : Bool} {fds : Descriptors} :
    Ends (mmapDescriptor s a len writable fd fds offset) m
      (fun _ _ => a.aligned = true ∧ m.config.isUserRange a len = true) (fun _ _ => True) := by
  simp only [mmapDescriptor, ends_bind, ends_requireOr, implies_true, and_true]
  intro _
  cases fds.get? fd with
  | none => trivial
  | some file => exact mmap_range

end Machine

namespace Op

/-- The pages that an operation may register. -/
def MayRegister (m : Machine) (id : PageId) : Op → Prop
  | fork src dst _ _ | copyFrom src dst _ => id.space = dst ∧ m.page? ⟨src, id.page⟩ ≠ none
  | alloc s _ a _ _ => id = ⟨s, a.page⟩
  | fault s a _ sp => id = ⟨s, a.page⟩ ∧ m.config.growsStack a sp = true
  | read s _ _ sp | write s _ _ sp =>
      ∃ b : VirtAddr, id = ⟨s, b.page⟩ ∧ m.config.growsStack b sp = true
  | setUpStack s =>
      ∃ a : VirtAddr, m.config.stackTop.sub? pageSize = some a ∧ id = ⟨s, a.page⟩
  | mmap s a len _ _ _ | mmapDescriptor s a len _ _ _ _ =>
      a.aligned = true ∧ m.config.isUserRange a len = true ∧
        ∃ i < Machine.pagesFor len, id = ⟨s, a.page.plus i⟩
  | _ => False

def span (m : Machine) (id : PageId) : Op → Nat
  | fork src _ _ _ | copyFrom src _ _ => ((m.page? ⟨src, id.page⟩).map Page.span).getD 0
  | mmap _ a len _ _ _ | mmapDescriptor _ a len _ _ _ _ =>
      if id.page = a.page then Machine.pagesFor len else 0
  | _ => 0

def Accesses : Op → Prop
  | read _ _ _ _ | write _ _ _ _ | claim _ _ | fault _ _ _ _ => True
  | _ => False

/-- The ways in which an operation can go: what it changes lasts, or it only gives
pages up, or it gives up the copies that it has made. -/
inductive Outcome (m : Machine) (op : Op) (l : Layout) : Prop
  | lasting (cs : List Change) (hc : m.layout.Course cs l) (hlast : ∀ c ∈ cs, c.Lasting)
      (hreg : ∀ o p, .register o p ∈ cs → op.MayRegister m o ∧ p.span = op.span m o)
      (hmakes : op.Accesses ∨ ∀ c ∈ cs, c.Makes)
  | gone (cs : List Change) (hc : m.layout.Course cs l) (hcs : ∀ c ∈ cs, ∃ id, c = .destroy id)
  | undone (dst : SpaceId) (cs : List Change) (h : m.layout.Undoes dst cs l)

variable {m : Machine} {op : Op}

namespace Outcome

variable {l : Layout} {s : SpaceId} {a : VirtAddr} {cs : List Change}

theorem of_rearranged (h : m.layout.Rearranged l) : Outcome m op l :=
  .gone [] (.nil h) (by simp)

theorem of_eq (h : l = m.layout) : Outcome m op l := by
  subst h
  exact .of_rearranged (.refl _)

theorem of_makes (hc : m.layout.Course cs l) (hcs : ∀ c ∈ cs, c.Makes)
    (hreg : ∀ o p, .register o p ∈ cs → op.MayRegister m o ∧ p.span = op.span m o) :
    Outcome m op l := by
  refine .lasting cs hc (fun c hmem => ?_) hreg (.inr hcs)
  have := hcs c hmem
  cases c <;> trivial

theorem of_adds {src dst : SpaceId} {vs : List VirtPage} (h : m.layout.Adds src dst vs cs l)
    (hvs : ∀ v ∈ vs, op.MayRegister m ⟨dst, v⟩)
    (hspan : ∀ o, op.span m o = ((m.page? ⟨src, o.page⟩).map Page.span).getD 0) :
    Outcome m op l := by
  refine .of_makes h.course.course h.makes fun o p hmem => ?_
  obtain ⟨page, hpage, hp⟩ := h.spans o p hmem
  have hget : m.page? ⟨src, o.page⟩ = some page := hpage
  have hs : p.span = op.span m o := by rw [hspan, hget, hp, Option.map_some, Option.getD_some]
  obtain ⟨rfl, hv, -⟩ := h.new _ hmem
  exact ⟨hvs _ hv, hs⟩

theorem of_grows {sp : VirtAddr} (hw : m.layout.UnpinnedCourse cs l) (hg : m.layout.Grows s sp cs)
    (ha : op.Accesses) (hr : ∀ o, (∃ b : VirtAddr, o = ⟨s, b.page⟩ ∧
      m.config.growsStack b sp = true) → op.MayRegister m o ∧ op.span m o = 0) :
    Outcome m op l := by
  refine .lasting cs hw.course hg.lasting (fun o p hmem => ?_) (.inl ha)
  obtain ⟨b, ho, rfl, hgrow⟩ := hg.grown o p hmem
  exact ⟨(hr o ⟨b, ho, hgrow⟩).1, (hr o ⟨b, ho, hgrow⟩).2.symm⟩

theorem of_mapped {n : Nat} {page : Nat → Page}
    (hw : m.layout.UnpinnedCourse
      ((List.range n).map (fun i => .register ⟨s, a.page.plus i⟩ (page i))) l)
    (hr : ∀ i < n, op.MayRegister m ⟨s, a.page.plus i⟩ ∧
      (page i).span = op.span m ⟨s, a.page.plus i⟩) : Outcome m op l := by
  refine .of_makes hw.course (fun c hc => ?_) fun o p hmem => ?_
  · obtain ⟨i, -, rfl⟩ := List.mem_map.mp hc
    trivial
  · obtain ⟨i, hi, heq⟩ := List.mem_map.mp hmem
    obtain ⟨rfl, rfl⟩ := Change.register.inj heq
    exact hr i (List.mem_range.mp hi)

end Outcome

def HasOutcome (m : Machine) (op : Op) {α : Type} (x : Step Machine α) : Prop :=
  Ends x m (fun _ t => Outcome m op t.layout) (fun _ t => Outcome m op t.layout)

theorem HasOutcome.perform {α : Type} {x : Step Machine α} (h : HasOutcome m op x) :
    Outcome m op (Machine.perform x m).2.layout :=
  Machine.perform_ends (Q := fun _ t => Outcome m op t.layout) h

section Operations

variable {s src dst : SpaceId} {a sp : VirtAddr} {order : List VirtPage}

theorem outcome_emptied {α : Type} {x : Step Machine α}
    (h : Ends x m (fun _ t => ∃ cs, (∀ c ∈ cs, ∃ v, c = .destroy ⟨s, v⟩) ∧
      m.layout.UnpinnedCourse cs t.layout ∧
        t.layout.page = fun id => if id.space = s then none else m.layout.page id)
      (fun _ _ => False)) : HasOutcome m op x := by
  refine h.mono ?_ fun _ _ h => h.elim
  intro _ t h
  obtain ⟨cs, hcs, hw, -⟩ := h
  exact .gone cs hw.course fun c hc => (hcs c hc).elim fun _ h => ⟨_, h⟩

theorem outcome_munmap (hs : m.layout.Sound) (hu : m.layout.Unpinned) :
    HasOutcome m op (Machine.munmap s a) := by
  refine (Machine.munmap_ends hs hu).mono ?_ fun _ _ h => h.elim
  intro _ t h
  obtain ⟨vs, cs, -, hcs, hw, -⟩ := h
  exact .gone cs hw.course fun c hc => (hcs c hc).elim fun _ h => ⟨_, h.2⟩

theorem outcome_remove (hs : m.layout.Sound) (hu : m.layout.Unpinned) :
    HasOutcome m op (Machine.remove s a) := by
  refine (Machine.removePage_ends hs hu).mono ?_ fun _ _ h => h.elim
  intro _ t h
  obtain ⟨cs, hcs, hw, -⟩ := h
  exact .gone cs hw.course fun c hc => ⟨_, hcs c hc⟩

theorem outcome_fork {refusals : Trap} (hs : m.layout.Sound) (hu : m.layout.Unpinned)
    (ha : (fork src dst refusals order).Admissible m) :
    HasOutcome m (.fork src dst refusals order) (Machine.forkInOrder src dst refusals order) := by
  obtain ⟨hne, hv, ho⟩ := ha
  apply (Machine.forkInOrder_ends hs hu hne (Machine.nodup_of_perm_keys ho) hv refusals).mono
  · intro _ t h
    obtain ⟨cs, h⟩ := h
    exact .of_adds h.toAdds (fun v hmem => ⟨rfl, (mem_order ho v).mp hmem⟩) fun _ => rfl
  · intro e t h
    obtain ⟨-, cs, h⟩ := h
    exact .undone dst cs h

theorem outcome_copyFrom (hs : m.layout.Sound) (hu : m.layout.Unpinned)
    (ha : (copyFrom src dst order).Admissible m) :
    HasOutcome m (.copyFrom src dst order) (Machine.copyInOrder src dst order) := by
  obtain ⟨hne, ho⟩ := ha
  apply (Machine.copyInOrder_ends hs hu hne (Machine.nodup_of_perm_keys ho)).mono
  · intro _ t h
    obtain ⟨cs, h⟩ := h
    exact .of_adds h.toAdds (fun v hmem => ⟨rfl, (mem_order ho v).mp hmem⟩) fun _ => rfl
  · intro e t h
    obtain ⟨-, cs, h⟩ := h
    exact .of_adds h (fun v hmem => ⟨rfl, (mem_order ho v).mp hmem⟩) fun _ => rfl

theorem outcome_alloc {type : PageType} {writable : Bool} {loader : Option Loader} :
    HasOutcome m (.alloc s type a writable loader) (Machine.alloc s type a writable loader) := by
  apply Machine.alloc_ends.mono
  · intro _ t h
    obtain ⟨kind, -, hd⟩ := h
    refine .of_makes (.single hd) (by simp [Change.Makes]) fun o p hmem => ?_
    obtain ⟨rfl, rfl⟩ := Change.register.inj (List.mem_singleton.mp hmem)
    exact ⟨rfl, rfl⟩
  · intro e t h
    exact .of_eq h.2

theorem outcome_claim (hs : m.layout.Sound) (hu : m.layout.Unpinned) :
    HasOutcome m (.claim s a) (Machine.claim s a) := by
  apply (Machine.claim_ends hs hu).mono
  · intro _ t h
    obtain ⟨page, cs, -, hc, -⟩ := h
    rcases hc.loads with hl | ⟨rfl, -⟩
    · exact .of_makes hc.course (fun c hmem => (hl.fills c hmem).makes) fun o p hmem =>
        absurd rfl ((hl.lasting _ hmem).2 o p)
    · exact .lasting _ hc.course (by simp [Change.Lasting]) (by simp) (.inl trivial)
  · intro e t h
    exact .of_rearranged h.2.reach

theorem outcome_fault {flags : FaultFlags} (hs : m.layout.Sound) (hu : m.layout.Unpinned) :
    HasOutcome m (.fault s a flags sp) (Machine.handleFault s a flags sp) := by
  apply (Machine.handleFault_ends hs hu).mono
  · intro _ t h
    obtain ⟨-, cs, hf, hw, -⟩ := h
    rcases hf with ho | ⟨rfl, -⟩
    · refine .lasting cs hw.course ho.lasting.1 (fun o p hmem => ?_) (.inl trivial)
      obtain ⟨ho, rfl, hg⟩ := ho.lasting.2 o p hmem
      exact ⟨⟨ho, hg⟩, rfl⟩
    · exact .lasting _ hw.course (by simp [Change.Lasting]) (by simp) (.inl trivial)
  · intro e t h
    obtain ⟨-, cs, hb, hw⟩ := h
    refine .lasting cs hw.course hb.lasting.1 (fun o p hmem => ?_) (.inl trivial)
    obtain ⟨ho, rfl, hg⟩ := hb.lasting.2 o p hmem
    exact ⟨⟨ho, hg⟩, rfl⟩

theorem outcome_setUpStack (hs : m.layout.Sound) (hu : m.layout.Unpinned) :
    HasOutcome m (.setUpStack s) (Machine.setUpStack s) := by
  apply (Machine.setUpStack_ends hs hu).mono
  · intro _ t h
    obtain ⟨a, l, cs, htop, hd, hc, -⟩ := h
    have hloads := hc.loads_new hs hd
    refine .of_makes ((Layout.Course.single hd).append hc.course) (fun c hmem => ?_)
      fun o p hmem => ?_
    · rcases List.mem_cons.mp hmem with rfl | hmem
      · trivial
      · exact (hloads.fills c hmem).makes
    · rcases List.mem_cons.mp hmem with heq | hmem
      · obtain ⟨ho, rfl⟩ := Change.register.inj heq
        exact ⟨⟨a, htop, ho⟩, rfl⟩
      · exact absurd rfl ((hloads.lasting _ hmem).2 o p)
  · intro e t h
    obtain ⟨-, hw | ⟨a, htop, -, hw⟩⟩ := h
    · exact .of_rearranged hw.course.rearranged
    · refine .of_makes hw.course (by simp [Change.Makes]) fun o p hmem => ?_
      obtain ⟨ho, rfl⟩ := Change.register.inj (List.mem_singleton.mp hmem)
      exact ⟨⟨a, htop, ho⟩, rfl⟩

theorem outcome_mmap {len offset : Nat} {writable : Bool} {file : FileId}
    (hu : m.layout.Unpinned) :
    HasOutcome m (.mmap s a len writable file offset)
      (Machine.mmap s a len writable file offset) := by
  apply ((Machine.mmap_ends hu).and Machine.mmap_range).mono
  · intro r t h
    obtain ⟨⟨-, -, hw⟩, hal, hr⟩ := h
    exact .of_mapped hw fun i hi => ⟨⟨hal, hr, i, hi, rfl⟩, Machine.span_mappedPages hr hi⟩
  · intro e t h
    exact .of_eq h.1.2

theorem outcome_mmapDescriptor {len fd offset : Nat} {writable : Bool} {fds : Descriptors}
    (hu : m.layout.Unpinned) :
    HasOutcome m (.mmapDescriptor s a len writable fd fds offset)
      (Machine.mmapDescriptor s a len writable fd fds offset) := by
  apply ((Machine.mmapDescriptor_ends hu).and Machine.mmapDescriptor_range).mono
  · intro r t h
    obtain ⟨⟨file, -, -, -, hw⟩, hal, hr⟩ := h
    exact .of_mapped hw fun i hi => ⟨⟨hal, hr, i, hi, rfl⟩, Machine.span_mappedPages hr hi⟩
  · intro e t h
    exact .of_eq h.1.2

end Operations

theorem outcome_run (hs : m.layout.Sound) (hu : m.layout.Unpinned) (ha : op.Admissible m) :
    Outcome m op (op.run m).2.layout := by
  cases op with
  | create s t => exact HasOutcome.perform (.of_eq (Machine.layout_create hs ha t))
  | refuse s t => exact HasOutcome.perform (.of_eq (Machine.layout_setSpace_same m rfl rfl))
  | armDisk reads writes => exact HasOutcome.perform (.of_eq (layout_armDisk m reads writes))
  | armFile file => exact HasOutcome.perform (.of_eq (Machine.layout_withFile_same m rfl))
  | drop s order => exact (outcome_emptied (Machine.dropInOrder_ends hs hu ha)).perform
  | kill s order => exact (outcome_emptied (Machine.killInOrder_ends hs hu ha)).perform
  | munmap => exact (outcome_munmap hs hu).perform
  | remove => exact (outcome_remove hs hu).perform
  | fork => exact (outcome_fork hs hu ha).perform
  | copyFrom => exact (outcome_copyFrom hs hu ha).perform
  | alloc => exact outcome_alloc.perform
  | claim => exact (outcome_claim hs hu).perform
  | fault => exact (outcome_fault hs hu).perform
  | setUpStack => exact (outcome_setUpStack hs hu).perform
  | read s a len sp =>
      refine Machine.performRead_ends (Q := fun _ t => Outcome m _ t.layout) hs hu len ?_
      intro e bs t h
      obtain ⟨cs, hw, hg⟩ := h.grows hu
      exact .of_grows hw hg trivial fun o ho => ⟨ho, rfl⟩
  | write s a data sp =>
      refine Machine.performWrite_ends (Q := fun _ t => Outcome m _ t.layout) hs hu data ?_
      intro e t h
      obtain ⟨cs, hw, hg⟩ := h.grows hu
      exact .of_grows hw hg trivial fun o ho => ⟨ho, rfl⟩
  | mmap => exact (outcome_mmap hu).perform
  | mmapDescriptor => exact (outcome_mmapDescriptor hu).perform

theorem evolves_run (hs : m.layout.Sound) (hu : m.layout.Unpinned) (ha : op.Admissible m) :
    m.layout.Evolves (fun id => op.MayRegister m id) (op.run m).2.layout := by
  cases outcome_run hs hu ha with
  | lasting cs hc hlast hreg =>
      exact .of_lasting hs hc hlast fun o p hmem => (hreg o p hmem).1
  | gone cs hc hcs => exact .of_gone hs hc hcs
  | undone dst cs h => exact .of_undoes hs h

theorem span_run (hs : m.layout.Sound) (hu : m.layout.Unpinned) (ha : op.Admissible m)
    {id : PageId} {q : Page} (hid : m.page? id = none) (hq : (op.run m).2.page? id = some q) :
    q.span = op.span m id := by
  have hnone : m.layout.page id = none := hid
  have hsome : (op.run m).2.layout.page id = some q := hq
  have hne : (op.run m).2.layout.page id ≠ none := by
    rw [hsome]
    exact Option.some_ne_none q
  cases outcome_run hs hu ha with
  | lasting cs hc hlast hreg =>
      obtain ⟨p, hmem, hcont⟩ := Layout.registered_of_course hs hc hnone hsome
      exact hcont.span.trans (hreg id p hmem).2
  | gone cs hc hcs =>
      have hev : m.layout.Evolves (fun _ => False) _ := .of_gone hs hc hcs
      exact (hev.new id hnone hne).elim
  | undone dst cs h =>
      have hev : m.layout.Evolves (fun _ => False) _ := .of_undoes hs h
      exact (hev.new id hnone hne).elim

end Op

end Pager
