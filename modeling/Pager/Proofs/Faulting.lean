import Pager.Machine.Access
import Pager.Proofs.Claiming

namespace Pager

open Step

def Page.stack : Page := .unloaded true .anon none 0

namespace Layout

variable {l l' l'' : Layout} {id : PageId} {page : Page} {cs : List Change}

structure UnpinnedCourse (l : Layout) (cs : List Change) (l' : Layout) : Prop where
  course : l.Course cs l'
  unpinned : l'.Unpinned

theorem UnpinnedCourse.refl (h : l.Unpinned) : l.UnpinnedCourse [] l := ⟨.refl l, h⟩

theorem UnpinnedCourse.of_eq (h : l.Unpinned) (he : l' = l) : l.UnpinnedCourse [] l' := by
  rw [he]
  exact .refl h

theorem ChangeStep.of_register (h : l.ChangeStep (.register id page) l') :
    l.page id = none ∧ l'.entry = l.entry ∧ l'.page id = some page ∧
      (l.Unpinned → l'.Unpinned) := by
  cases h with
  | register _ _ hpage => exact ⟨hpage, rfl, Function.update_self .., fun hu => hu⟩

theorem Aborted.unpinnedCourse (h : l.Aborted l') :
    l.UnpinnedCourse [] l' := ⟨.nil h.reach, h.unpinned⟩

/-- What can be seen of a page of a space being made accessible at an address.
If there is none the stack may grow. -/
inductive Opens (l : Layout) (s : SpaceId) (a sp : VirtAddr) (w : World) : List Change → Prop
  | there (page : Page) (cs : List Change) (hpage : l.page ⟨s, a.page⟩ = some page)
      (h : Loads ⟨s, a.page⟩ page w cs) : Opens l s a sp w cs
  | grown (cs : List Change) (hpage : l.page ⟨s, a.page⟩ = none)
      (hg : l.config.growsStack a sp = true) (h : Loads ⟨s, a.page⟩ .stack w cs) :
      Opens l s a sp w (.register ⟨s, a.page⟩ .stack :: cs)

/-- What can be seen of it if it fails. -/
inductive Balks (l : Layout) (s : SpaceId) (a sp : VirtAddr) : List Change → Prop
  | same : Balks l s a sp []
  | grown (hpage : l.page ⟨s, a.page⟩ = none) (hg : l.config.growsStack a sp = true) :
      Balks l s a sp [.register ⟨s, a.page⟩ .stack]

end Layout

namespace Machine

variable {m : Machine} {s : SpaceId} {a sp : VirtAddr} {id : PageId} {page : Page}

theorem ends_requireOr {c : Bool} {e : Event} {n : Errno} {Q : Unit → Machine → Prop}
    {E : Failure → Machine → Prop} :
    Ends (requireOr c e n) m Q E ↔
      (c = true → Q () m) ∧ (c = false → E (.errno n) (m.emit e)) := by
  cases c <;> simp [requireOr, ends_note]

theorem ends_insert (hn : m.layout.page id = none) {Q : Unit → Machine → Prop}
    {E : Failure → Machine → Prop} : Ends (insert id page) m Q E ↔ Q () (m.setPage id page) := by
  have hnew : (m.pages id.space).insertNew id.page page =
      .ok ((m.pages id.space).set id.page page) := by
    have hc : (m.pages id.space).contains id.page = false := Option.isSome_eq_false_iff.mpr
      (Option.isNone_iff_eq_none.mpr hn)
    simp only [PageMap.insertNew, hc, Bool.false_eq_true, if_false]
  simp [insert, hnew, setPage]

theorem setPage_step (page : Page) (hn : m.layout.page id = none) (hl : page.loaded = false)
    (hh : Layout.WellFormed id.page page) :
    m.layout.ChangeStep (.register id page) (m.setPage id page).layout := by
  rw [layout_setPage]
  exact .register id page hn hl hh

theorem register_ends (hl : page.loaded = false) (hh : Layout.WellFormed id.page page) :
    Ends (register id page) m (fun _ t => m.layout.ChangeStep (.register id page) t.layout)
      (fun e t => (∃ k, e = .errno k) ∧ t.layout = m.layout) := by
  have hc : (m.pages id.space).contains id.page = (m.layout.page id).isSome := rfl
  simp only [register, ends_bind, ends_get, ends_require, hc]
  refine ⟨fun h => ?_, fun _ => ⟨⟨_, rfl⟩, trivial⟩⟩
  have hn : m.layout.page id = none := by simpa using h
  rw [ends_insert hn]
  exact setPage_step page hn hl hh

theorem ends_register (hn : m.layout.page id = none) {Q : Unit → Machine → Prop}
    {E : Failure → Machine → Prop} : Ends (register id page) m Q E ↔ Q () (m.setPage id page) := by
  have hc : (m.pages id.space).contains id.page = false := Option.isSome_eq_false_iff.mpr
    (Option.isNone_iff_eq_none.mpr hn)
  simp [register, hc, ends_insert hn]

theorem ends_demandHead {n : Nat} (h : ∀ q, m.layout.page id = some q → q.canHead = true)
    {Q : Unit → Machine → Prop} {E : Failure → Machine → Prop} :
    Ends (demandHead id n) m Q E ↔ Q () m := by
  have hall : (m.page? id).all Page.canHead = true := by
    rw [Option.all_eq_true]
    exact h
  simp [demandHead, hall]

theorem canHead_of_unloaded (hpage : m.layout.page id = some page) (hl : page.loaded = false)
    (q : Page) (hq : m.layout.page id = some q) : q.canHead = true := by
  obtain rfl : page = q := Option.some.inj (hpage.symm.trans hq)
  cases hc : page.content <;> simp_all [Page.loaded, Page.canHead]

theorem alloc_ends {type : PageType} {writable : Bool} {loader : Option Loader} :
    Ends (alloc s type a writable loader) m
      (fun _ t => ∃ kind : Kind, type = kind.type ∧ m.layout.ChangeStep
        (.register ⟨s, a.page⟩ (.unloaded writable kind loader 0)) t.layout)
      (fun e t => (∃ k, e = .errno k) ∧ t.layout = m.layout) := by
  cases type with
  | uninit => exact ⟨⟨_, rfl⟩, rfl⟩
  | pageCache => exact ⟨⟨_, rfl⟩, rfl⟩
  | anon =>
      exact (register_ends rfl (Layout.wellFormed_unloaded ..)).mono
        (fun _ t h => ⟨.anon, rfl, h⟩) fun e t h => h
  | file =>
      exact (register_ends rfl (Layout.wellFormed_unloaded ..)).mono
        (fun _ t h => ⟨.file, rfl, h⟩) fun e t h => h

theorem claim_ends (hs : m.layout.Sound) (hu : m.layout.Unpinned) :
    Ends (claim s a) m
      (fun _ t => ∃ page cs, m.layout.page ⟨s, a.page⟩ = some page ∧
        m.layout.Claimed ⟨s, a.page⟩ page cs t.layout ∧ t.layout.Unpinned)
      (fun e t => m.layout.Expects e ∧ m.layout.Aborted t.layout) := by
  simp only [claim, ends_bind, ends_get]
  have hfind : m.find? s a = m.layout.page ⟨s, a.page⟩ := rfl
  rw [hfind]
  cases hpage : m.layout.page ⟨s, a.page⟩ with
  | none => exact ⟨trivial, .refl _, .refl _, hu⟩
  | some page =>
      refine (claimPage_ends hs hu hpage).mono ?_ fun e t h =>
        ⟨h.1, h.2.elim fun _ h => h.aborted hu⟩
      intro _ t h
      obtain ⟨cs, h⟩ := h
      exact ⟨page, cs, rfl, h⟩

theorem stack_ends (hs : m.layout.Sound) (hu : m.layout.Unpinned) :
    Ends (do alloc s .anon a true none; claim s a : Step Machine Unit) m
      (fun _ t => ∃ l cs, m.layout.ChangeStep (.register ⟨s, a.page⟩ .stack) l ∧
        l.Claimed ⟨s, a.page⟩ .stack cs t.layout ∧ t.layout.Unpinned)
      (fun e t => m.layout.Expects e ∧ (m.layout.UnpinnedCourse [] t.layout ∨
        m.layout.page ⟨s, a.page⟩ = none ∧
          m.layout.UnpinnedCourse [.register ⟨s, a.page⟩ .stack] t.layout)) := by
  simp only [alloc, ends_bind]
  apply (register_ends rfl (Layout.wellFormed_unloaded ..)).mono
  · intro _ t hr
    have hst := hs.of_step hr
    obtain ⟨hnone, -, hpage, hpin⟩ := hr.of_register
    have hut : t.layout.Unpinned := hpin hu
    apply (claim_ends hst hut).mono
    · intro _ t' h
      obtain ⟨page, cs, hp, hc, hut'⟩ := h
      obtain rfl : Page.stack = page := Option.some.inj (hpage.symm.trans hp)
      exact ⟨t.layout, cs, hr, hc, hut'⟩
    · intro e t' h
      obtain ⟨he, ha⟩ := h
      exact ⟨he.congr (Layout.capacity_of_step hr),
        .inr ⟨hnone, (Layout.Course.single hr).tail ha.reach, ha.unpinned⟩⟩
  · intro e t h
    obtain ⟨⟨k, rfl⟩, hl⟩ := h
    exact ⟨trivial, .inl (.of_eq hu hl)⟩

theorem setUpStack_ends (hs : m.layout.Sound) (hu : m.layout.Unpinned) :
    Ends (setUpStack s) m
      (fun _ t => ∃ a l cs, m.config.stackTop.sub? pageSize = some a ∧
        m.layout.ChangeStep (.register ⟨s, a.page⟩ .stack) l ∧
        l.Claimed ⟨s, a.page⟩ .stack cs t.layout ∧ t.layout.Unpinned)
      (fun e t => (m.layout.Expects e ∨ e = .panic .subOverflow ∧
        m.config.stackTop.toNat < pageSize) ∧ (m.layout.UnpinnedCourse [] t.layout ∨
        ∃ a, m.config.stackTop.sub? pageSize = some a ∧ m.layout.page ⟨s, a.page⟩ = none ∧
          m.layout.UnpinnedCourse [.register ⟨s, a.page⟩ .stack] t.layout)) := by
  simp only [setUpStack, ends_bind, ends_get, ends_ofOption, ends_pure]
  refine ⟨fun a ha => ?_, fun ha =>
    ⟨.inr ⟨trivial, VirtAddr.sub?_eq_none.mp ha⟩, .inl (.refl hu)⟩⟩
  have h := stack_ends (s := s) (a := a) hs hu
  rw [ends_bind] at h
  apply h.mono
  · intro _ t h
    apply h.mono
    · intro _ t' h
      obtain ⟨l, cs, h'⟩ := h
      exact ⟨a, l, cs, ha, h'⟩
    · intro e t' h
      obtain ⟨he, h' | ⟨hn, h'⟩⟩ := h
      · exact ⟨.inl he, .inl h'⟩
      · exact ⟨.inl he, .inr ⟨a, ha, hn, h'⟩⟩
  · intro e t h
    obtain ⟨he, h' | ⟨hn, h'⟩⟩ := h
    · exact ⟨.inl he, .inl h'⟩
    · exact ⟨.inl he, .inr ⟨a, ha, hn, h'⟩⟩

theorem page_start_page (a : VirtAddr) : a.page.start.page = a.page := by
  have ha := a.val.toNat_lt
  simp only [VirtAddr.page, VirtPage.start, VirtPage.mk.injEq]
  rw [← UInt64.toNat_inj]
  simp only [UInt64.toNat_div, UInt64.toNat_mul, UInt64.reduceToNat]
  omega

end Machine

namespace Layout

def Mapped (l : Layout) (id : PageId) (page : Page) (f : FrameId) (p : PhysPage) : Prop :=
  l.InFrame id page f p ∧ ∃ e, l.entry id = some e ∧ e.page = p ∧ e.has .writable = page.writable

theorem Claimed.mapped {l l' : Layout} {id : PageId} {page : Page} {cs : List Change}
    (h : l.Claimed id page cs l') (hs : l'.Sound) :
    ∃ q f p, l'.Mapped id q f p ∧ q.writable = page.writable := by
  obtain ⟨q, f, p, hin, hw, he⟩ := h.resident
  refine ⟨q, f, p, ⟨hin, _, he, Entry.page_fresh (hs.toNat_lt hin.2.2) _, ?_⟩, hw⟩
  rw [Entry.has_fresh, hw]

theorem Claimed.loads_new {l l₁ l' : Layout} {id : PageId} {page : Page} {cs : List Change}
    (hs : l.Sound) (hr : l.ChangeStep (.register id page) l₁) (h : l₁.Claimed id page cs l') :
    Loads id page l'.world cs := by
  obtain ⟨hnone, hentry, -⟩ := hr.of_register
  rcases h.loads with hloads | ⟨-, hne⟩
  · exact hloads
  · refine absurd ?_ hne
    rw [hentry]
    exact hs.entry_eq_none (by rw [home?, hnone]; rfl)

/-- A handled fault. A page that was mapped already gets a fresh mapping. -/
def Faulted (l : Layout) (s : SpaceId) (a sp : VirtAddr) (w : World) (cs : List Change) : Prop :=
  l.Opens s a sp w cs ∨ cs = [.refresh ⟨s, a.page⟩] ∧ l.entry ⟨s, a.page⟩ ≠ none

end Layout

namespace Machine

variable {m : Machine} {s : SpaceId} {a sp : VirtAddr} {id : PageId} {page : Page}
  {flags : FaultFlags}

theorem growStack_ends (hs : m.layout.Sound) (hu : m.layout.Unpinned) :
    Ends (growStack s a) m
      (fun _ t => ∃ l cs, m.layout.ChangeStep (.register ⟨s, a.page⟩ .stack) l ∧
        l.Claimed ⟨s, a.page⟩ .stack cs t.layout ∧ t.layout.Unpinned)
      (fun e t => m.layout.Expects e ∧ (m.layout.UnpinnedCourse [] t.layout ∨
        m.layout.page ⟨s, a.page⟩ = none ∧
          m.layout.UnpinnedCourse [.register ⟨s, a.page⟩ .stack] t.layout)) := by
  have hl : (m.emit (.stackGrown a.page.start)).layout = m.layout := layout_emit m rfl
  have h := stack_ends (m := m.emit (.stackGrown a.page.start)) (s := s) (a := a.page.start)
    (by rw [hl]; exact hs) (by rw [hl]; exact hu)
  rw [page_start_page, hl] at h
  exact h

theorem handleFault_ends (hs : m.layout.Sound) (hu : m.layout.Unpinned) :
    Ends (handleFault s a flags sp) m
      (fun _ t => flags.contains .notPresent = true ∧
        ∃ cs, m.layout.Faulted s a sp t.layout.world cs ∧ m.layout.UnpinnedCourse cs t.layout ∧
          ∃ q f p, t.layout.Mapped ⟨s, a.page⟩ q f p ∧
            (flags.contains .write = true → q.writable = true))
      (fun e t => m.layout.Expects e ∧
        ∃ cs, m.layout.Balks s a sp cs ∧ m.layout.UnpinnedCourse cs t.layout) := by
  have hl : (m.emit (.fault a flags)).layout = m.layout := layout_emit m rfl
  have hfail {t : Machine} (ht : t.layout = m.layout) (n : Errno) :
      m.layout.Expects (.errno n) ∧
        ∃ cs, m.layout.Balks s a sp cs ∧ m.layout.UnpinnedCourse cs t.layout := by
    exact ⟨trivial, [], .same, .of_eq hu ht⟩
  simp only [handleFault, ends_bind, ends_note, ends_get, ends_requireOr]
  refine ⟨fun _ => ⟨fun hpres => ?_, fun _ => hfail ((layout_emit _ rfl).trans hl) _⟩,
    fun _ => hfail ((layout_emit _ rfl).trans hl) _⟩
  have hfind : (m.emit (.fault a flags)).find? s a = m.layout.page ⟨s, a.page⟩ := rfl
  rw [hfind]
  cases hpage : m.layout.page ⟨s, a.page⟩ with
  | none =>
      simp only [ends_bind, ends_requireOr]
      refine ⟨fun hg => ?_, fun _ => hfail ((layout_emit _ rfl).trans hl) _⟩
      have h := growStack_ends (m := m.emit (.fault a flags)) (s := s) (a := a)
        (by rw [hl]; exact hs) (by rw [hl]; exact hu)
      rw [hl] at h
      apply h.mono
      · intro _ t h
        obtain ⟨l, cs, hr, hc, hut⟩ := h
        have hst := (hs.of_step hr).of_course hc.course
        obtain ⟨q, f, p, hmap, hw⟩ := hc.mapped hst
        exact ⟨hpres, .register _ .stack :: cs, .inl (.grown cs hpage hg (hc.loads_new hs hr)),
          ⟨(Layout.Course.single hr).append hc.course, hut⟩, q, f, p, hmap, fun _ => hw⟩
      · intro e t h
        obtain ⟨he, hw | ⟨-, hw⟩⟩ := h
        · exact ⟨he, [], .same, hw⟩
        · exact ⟨he, _, .grown hpage hg, hw⟩
  | some page =>
      simp only [ends_bind, ends_requireOr]
      refine ⟨fun hw => ?_, fun _ => hfail ((layout_emit _ rfl).trans hl) _⟩
      have hpage' : (m.emit (.fault a flags)).layout.page ⟨s, a.page⟩ = some page := by
        rw [hl]
        exact hpage
      have h := claimPage_ends (by rw [hl]; exact hs) (by rw [hl]; exact hu) hpage'
      rw [hl] at h
      refine h.mono ?_ fun e t h =>
        ⟨h.1, [], .same, h.2.elim fun _ h => (h.aborted hu).unpinnedCourse⟩
      intro _ t h
      obtain ⟨cs, hc, hut⟩ := h
      obtain ⟨q, f, p, hmap, hqw⟩ := hc.mapped (hs.of_course hc.course)
      refine ⟨hpres, cs, ?_, ⟨hc.course, hut⟩, q, f, p, hmap, fun hwrite => ?_⟩
      · rcases hc.loads with hloads | hr
        · exact .inl (.there page cs hpage hloads)
        · exact .inr hr
      · rw [hqw]
        simpa [hwrite] using hw

end Machine

end Pager
