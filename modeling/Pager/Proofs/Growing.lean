import Pager.Proofs.Invariance

namespace Pager

open Step

theorem Layout.KeepsIdle.isSome_eq {l l' : Layout} (h : l.KeepsIdle l') (id : PageId) :
    (l'.page id).isSome = (l.page id).isSome := by
  cases hpage : l.page id with
  | none =>
      rw [h.idle id (by rw [Layout.home?, hpage]; rfl), hpage]
  | some page =>
      obtain ⟨q, hq, -⟩ := h.drifts id page hpage
      rw [hq]
      rfl

namespace Machine

variable {m t : Machine} {s : SpaceId} {a sp : VirtAddr} {flags : FaultFlags} {id : PageId}

structure Grows (m : Machine) (s : SpaceId) (a : VirtAddr) (flags : FaultFlags)
    (sp : VirtAddr) : Prop where
  user : a.isNull = false ∧ m.config.isKernel a = false
  absent : flags.contains .notPresent = true
  fresh : m.page? ⟨s, a.page⟩ = none
  near : m.config.growsStack a sp = true

def stackPage? (m : Machine) (s : SpaceId) : Option PageId :=
  (m.config.stackTop.sub? pageSize).map (fun a => ⟨s, a.page⟩)

/-- The same pages are registered. -/
def SamePages (m t : Machine) : Prop := ∀ id, (t.page? id).isSome = (m.page? id).isSome

/-- One page has been added, which belongs to the stack and has no bytes yet. -/
structure GrownBy (m : Machine) (id : PageId) (t : Machine) : Prop where
  fresh : m.page? id = none
  page : t.page? id = some .stack
  others : ∀ o, o ≠ id → (t.page? o).isSome = (m.page? o).isSome

theorem samePages_of_aborted (h : m.layout.Aborted t.layout) : m.SamePages t :=
  h.idle.isSome_eq

theorem stack_grownBy (hs : m.layout.Sound) (hu : m.layout.Unpinned)
    (hn : m.page? ⟨s, a.page⟩ = none) :
    Ends (do alloc s .anon a true none; claim s a : Step Machine Unit) m (fun _ _ => True)
      (fun _ t => m.GrownBy ⟨s, a.page⟩ t) := by
  rw [ends_bind, alloc, ends_register hn]
  have hr := setPage_step .stack hn rfl (Layout.wellFormed_unloaded ..)
  refine (claim_ends (hs.of_step hr) (hr.of_register.2.2.2 hu)).mono (fun _ _ _ => trivial) ?_
  rintro f t ⟨-, ha⟩
  have hnew : (m.setPage ⟨s, a.page⟩ .stack).layout.page ⟨s, a.page⟩ = some .stack :=
    hr.of_register.2.2.1
  refine ⟨hn, ?_, fun o ho => ?_⟩
  · exact (ha.idle.idle _ (by rw [Layout.home?, hnew]; rfl)).trans hnew
  · refine (ha.idle.isSome_eq o).trans (congrArg Option.isSome ?_)
    exact (page?_setPage m _ o _).trans (if_neg ho.symm)

theorem growStack_grownBy (hs : m.layout.Sound) (hu : m.layout.Unpinned)
    (hn : m.page? ⟨s, a.page⟩ = none) :
    Ends (growStack s a) m (fun _ _ => True) (fun _ t => m.GrownBy ⟨s, a.page⟩ t) := by
  have hl : (m.emit (.stackGrown a.page.start)).layout = m.layout := layout_emit m rfl
  have h := stack_grownBy (m := m.emit (.stackGrown a.page.start)) (s := s) (a := a.page.start)
    (by rwa [hl]) (by rwa [hl]) (by rw [page_start_page]; exact hn)
  rw [page_start_page] at h
  exact h.mono (fun _ _ _ => trivial) fun _ _ hg => ⟨hn, hg.page, hg.others⟩

theorem handleFault_grows (hs : m.layout.Sound) (hu : m.layout.Unpinned) :
    Ends (handleFault s a flags sp) m (fun _ _ => True)
      (fun _ t => (m.Grows s a flags sp → m.GrownBy ⟨s, a.page⟩ t) ∧
        (¬m.Grows s a flags sp → m.SamePages t)) := by
  have hl : (m.emit (.fault a flags)).layout = m.layout := layout_emit m rfl
  have hs' : (m.emit (.fault a flags)).layout.Sound := by rwa [hl]
  have hu' : (m.emit (.fault a flags)).layout.Unpinned := by rwa [hl]
  have hnot {t : Machine} (hg : ¬m.Grows s a flags sp) (ht : m.SamePages t) :
      (m.Grows s a flags sp → m.GrownBy ⟨s, a.page⟩ t) ∧
        (¬m.Grows s a flags sp → m.SamePages t) := ⟨fun h => absurd h hg, fun _ => ht⟩
  simp only [handleFault, ends_bind, ends_note, ends_get, ends_requireOr]
  refine ⟨fun huser => ⟨fun habs => ?_, fun habs => hnot ?_ fun _ => rfl⟩,
    fun huser => hnot ?_ fun _ => rfl⟩
  · have hfind : (m.emit (.fault a flags)).find? s a = m.page? ⟨s, a.page⟩ := rfl
    rw [hfind]
    cases hpage : m.page? ⟨s, a.page⟩ with
    | none =>
        simp only [ends_bind, ends_requireOr]
        refine ⟨fun hnear => ?_, fun hnear => hnot ?_ fun _ => rfl⟩
        · have huser' : a.isNull = false ∧
              (m.emit (.fault a flags)).config.isKernel a = false := by simpa using huser
          have hg : m.Grows s a flags sp := ⟨huser', habs, hpage, hnear⟩
          refine (growStack_grownBy hs' hu' hpage).mono (fun _ _ _ => trivial) fun f t h => ?_
          exact ⟨fun _ => ⟨hpage, h.page, h.others⟩, fun hno => absurd hg hno⟩
        · rintro ⟨-, -, -, h⟩
          exact Bool.false_ne_true (hnear.symm.trans h)
    | some page =>
        simp only [ends_bind, ends_requireOr]
        have hg : ¬m.Grows s a flags sp := by
          rintro ⟨-, -, h, -⟩
          rw [hpage] at h
          cases h
        refine ⟨fun _ => ?_, fun _ => hnot hg fun _ => rfl⟩
        refine (claimPage_ends hs' hu' hpage).mono (fun _ _ _ => trivial) ?_
        rintro f t ⟨-, v, h⟩
        exact hnot hg (samePages_of_aborted (m := m.emit (.fault a flags)) (h.aborted hu'))
  · rintro ⟨-, h, -, -⟩
    exact Bool.false_ne_true (habs.symm.trans h)
  · rintro ⟨⟨h, h'⟩, -, -, -⟩
    have h'' : (m.emit (.fault a flags)).config.isKernel a = false := h'
    simp [h, h''] at huser

theorem setUpStack_again (hid : m.stackPage? s = some id) (hpage : m.page? id ≠ none) :
    setUpStack s m = .error (.errno .eexist) m := by
  obtain ⟨a, ha, rfl⟩ := Option.map_eq_some_iff.mp hid
  have hc : (m.pages s).contains a.page = true := Option.isSome_iff_ne_none.mpr hpage
  have h : Ends (setUpStack s) m (fun _ _ => False)
      (fun f t => f = .errno .eexist ∧ t = m) := by
    simp [setUpStack, ha, alloc, register, hc]
  cases hx : setUpStack s m with
  | ok u t => exact (h.of_ok hx).elim
  | error f t =>
      obtain ⟨rfl, rfl⟩ := h.of_error hx
      rfl

theorem setUpStack_grows (hs : m.layout.Sound) (hu : m.layout.Unpinned) :
    Ends (setUpStack s) m (fun _ _ => True)
      (fun f t =>
        (∀ id, m.stackPage? s = some id → m.page? id = none → m.GrownBy id t) ∧
        (∀ id, m.stackPage? s = some id → m.page? id ≠ none → f = .errno .eexist ∧ t = m) ∧
        (m.stackPage? s = none → f = .panic .subOverflow ∧ t = m)) := by
  cases hid : m.stackPage? s with
  | none =>
      have ha : m.config.stackTop.sub? pageSize = none := Option.map_eq_none_iff.mp hid
      simp [setUpStack, ha]
  | some id =>
      by_cases hpage : m.page? id = none
      · obtain ⟨a, ha, rfl⟩ := Option.map_eq_some_iff.mp hid
        simp only [setUpStack, ends_bind, ends_get, ends_ofOption, ends_pure]
        refine ⟨fun b hb => ?_, fun hb => by simp [ha] at hb⟩
        obtain rfl : a = b := Option.some.inj (ha.symm.trans hb)
        have h := stack_grownBy hs hu hpage
        rw [ends_bind] at h
        have hend {f : Failure} {t : Machine} (h : m.GrownBy ⟨s, a.page⟩ t) :
            (∀ id, some ⟨s, a.page⟩ = some id → m.page? id = none → m.GrownBy id t) ∧
            (∀ id, some ⟨s, a.page⟩ = some id → m.page? id ≠ none →
              f = .errno .eexist ∧ t = m) ∧
            (some (⟨s, a.page⟩ : PageId) = none → f = .panic .subOverflow ∧ t = m) := by
          refine ⟨?_, ?_, fun h => by cases h⟩
          · rintro _ ⟨⟩ -
            exact h
          · rintro _ ⟨⟩ hne
            exact absurd hpage hne
        exact h.mono (fun _ _ h => h.mono (fun _ _ _ => trivial) fun _ _ h => hend h)
          fun _ _ h => hend h
      · rw [ends_of_error (setUpStack_again hid hpage)]
        refine ⟨?_, fun _ _ _ => ⟨rfl, rfl⟩, fun h => by cases h⟩
        rintro _ ⟨⟩ hnone
        exact absurd hnone hpage

end Machine

open Machine in
/-- A fault or a stack set-up that fails adds no page, but for the new page of the
stack: once that is registered it stays, whatever became of the attempt to load
it, and the stack cannot be set up any more while it is there. -/
theorem Reachable.failed_growth {m : Machine} (h : Reachable m) (s : SpaceId) :
    (∀ (a : VirtAddr) (flags : FaultFlags) (sp : VirtAddr) (f : Failure) (t : Machine),
      handleFault s a flags sp m = .error f t →
        (m.Grows s a flags sp → m.GrownBy ⟨s, a.page⟩ t) ∧
        (¬m.Grows s a flags sp → m.SamePages t)) ∧
    (∀ (f : Failure) (t : Machine), setUpStack s m = .error f t →
      (∀ id, m.stackPage? s = some id → m.page? id = none →
        m.GrownBy id t ∧ setUpStack s t = .error (.errno .eexist) t) ∧
      (∀ id, m.stackPage? s = some id → m.page? id ≠ none → f = .errno .eexist ∧ t = m) ∧
      (m.stackPage? s = none → f = .panic .subOverflow ∧ t = m)) ∧
    (∀ id, m.stackPage? s = some id → m.page? id ≠ none →
      setUpStack s m = .error (.errno .eexist) m) := by
  obtain ⟨hs, hu⟩ := h.sound
  refine ⟨fun a flags sp f t hx => (handleFault_grows hs hu).of_error hx, fun f t hx => ?_,
    fun id hid hpage => setUpStack_again hid hpage⟩
  obtain ⟨hnew, hold⟩ := (setUpStack_grows hs hu).of_error hx
  refine ⟨fun id hid hpage => ⟨hnew id hid hpage, ?_⟩, hold⟩
  have hconfig : t.config = m.config := by
    obtain ⟨-, hw | ⟨a, -, -, hw⟩⟩ := (setUpStack_ends hs hu).of_error hx
    · exact Layout.config_of_course hw.course
    · exact Layout.config_of_course hw.course
  refine setUpStack_again (by rw [stackPage?, hconfig]; exact hid) ?_
  rw [(hnew id hid hpage).page]
  exact Option.some_ne_none _

open Machine in
theorem failed_growth_one_frame :
    ∃ m t u, m = ((Op.claim 0 ⟨4096⟩).run
        ((Op.alloc 0 .anon ⟨4096⟩ true none).run (.boot {} (.ofCapacity 1) none [])).2).2 ∧
      setUpStack 0 m = .error (.errno .enomem) t ∧
      m.GrownBy ⟨0, ⟨0x4747f⟩⟩ t ∧ setUpStack 0 t = .error (.errno .eexist) t ∧
      handleFault 0 ⟨0x47470000⟩ .notPresent ⟨0x47470000⟩ m = .error (.errno .enomem) u ∧
      m.GrownBy ⟨0, ⟨0x47470⟩⟩ u := by
  have h₀ : Starts (.boot {} (.ofCapacity 1) none []) :=
    ⟨{}, 1, none, [], by decide, by rintro d ⟨⟩, rfl⟩
  have hr : Runs (.boot {} (.ofCapacity 1) none [])
      [(.alloc 0 .anon ⟨4096⟩ true none, _), (.claim 0 ⟨4096⟩, _)] _ :=
    .cons trivial (.cons trivial (.nil _))
  have h : Reachable ((Op.claim 0 ⟨4096⟩).run
      ((Op.alloc 0 .anon ⟨4096⟩ true none).run (.boot {} (.ofCapacity 1) none [])).2).2 :=
    ⟨_, _, h₀, hr⟩
  generalize hm : ((Op.claim 0 ⟨4096⟩).run
    ((Op.alloc 0 .anon ⟨4096⟩ true none).run (.boot {} (.ofCapacity 1) none [])).2).2 = m at h
  obtain ⟨t, hx⟩ : ∃ t, setUpStack 0 m = .error (.errno .enomem) t :=
    exists_error_of_perform (by rw [← hm]; decide +kernel)
  obtain ⟨u, hf⟩ :
      ∃ u, handleFault 0 ⟨0x47470000⟩ .notPresent ⟨0x47470000⟩ m = .error (.errno .enomem) u :=
    exists_error_of_perform (by rw [← hm]; decide +kernel)
  obtain ⟨hfault, hsetup, -⟩ := Reachable.failed_growth h 0
  have hfresh (v : VirtPage) (hv : (m.page? ⟨0, v⟩).isSome = false) : m.page? ⟨0, v⟩ = none :=
    Option.isNone_iff_eq_none.mp (Option.isSome_eq_false_iff.mp hv)
  have hg : m.Grows 0 ⟨0x47470000⟩ .notPresent ⟨0x47470000⟩ :=
    ⟨by rw [← hm]; decide +kernel, by decide, hfresh _ (by rw [← hm]; decide +kernel),
      by rw [← hm]; decide +kernel⟩
  obtain ⟨hgrown, hagain⟩ := (hsetup _ t hx).1 ⟨0, ⟨0x4747f⟩⟩ (by rw [← hm]; decide +kernel)
    (hfresh _ (by rw [← hm]; decide +kernel))
  exact ⟨m, t, u, rfl, hx, hgrown, hagain, hf, (hfault _ _ _ _ u hf).1 hg⟩

end Pager
