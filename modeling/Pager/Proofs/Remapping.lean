import Pager.Proofs.Flushing

namespace Pager

open Step

namespace Layout

variable {l l₀ l' : Layout} {id o : PageId} {page : Page} {f : FrameId} {p : PhysPage}
  {cs : List Change}

def remap (l : Layout) (id : PageId) (page : Page) (p : PhysPage) : Layout :=
  { l with entry := Function.update l.entry id (some (.fresh p page.writable)) }

theorem changed_remap (hpage : l.page id = some page) (o : PageId) :
    (l.remap id page p).changed o = if o = id then page.dirty else l.changed o := by
  split
  next ho =>
    subst ho
    have hentry : (l.remap o page p).entry o = some (.fresh p page.writable) :=
      Function.update_self ..
    have hpage' : (l.remap o page p).page o = some page := hpage
    rw [changed, hardDirty, hentry, has_fresh_dirty, hpage', Option.any_some, Bool.or_false]
  next ho =>
    have hd : (l.remap id page p).hardDirty o = l.hardDirty o :=
      hardDirty_congr (Function.update_of_ne ho ..)
    have hpage' : (l.remap id page p).page o = l.page o := rfl
    rw [changed, changed, hd, hpage']

theorem pending?_remap (hs : l.Sound) (hpage : l.page id = some page) (o : PageId) :
    (l.remap id page p).pending? o =
      if o = id ∧ page.dirty = false then none else l.pending? o := by
  by_cases ho : o = id
  · subst ho
    cases hd : page.dirty with
    | false =>
        rw [if_pos ⟨rfl, rfl⟩]
        refine pending?_of_clean fun x hx => ?_
        rw [hold_dirty hx, changed_remap hpage, if_pos rfl, hd]
    | true =>
        rw [if_neg (by simp)]
        refine pending?_congr ?_ fun _ _ _ => rfl
        have hpage' : (l.remap o page p).page o = some page := hpage
        rw [hold?_eq page hpage', hold?_eq page hpage]
        obtain ⟨w, f, c⟩ := page
        cases c with
        | unloaded | anon => cases hd
        | file g span dirty =>
            obtain rfl : dirty = true := hd
            cases f with
            | none => rfl
            | some f =>
                simp only [Page.hold?, Bool.true_or]
                rfl
  · rw [if_neg fun h => ho h.1]
    exact pending?_congr (hold?_congr hs rfl (fun _ _ _ hq => hq)
      (hardDirty_congr (Function.update_of_ne ho ..))) fun _ _ _ => rfl

namespace Saves

theorem of_calm (h : Saves l₀ l) (hs : l.Sound) (hm : l.Course cs l') (hcs : ∀ c ∈ cs, c.Quiet)
    (hl : l'.lost = l.lost) : Saves l₀ l' := by
  refine (hm.preserves (P := fun k => k.Sound ∧ l.lost ≤ k.lost ∧ (k.lost = l.lost → Saves l₀ k))
    ⟨hs, le_rfl, fun _ => h⟩ ?_ ?_).2.2 hl
  · rintro a b hab ⟨ha, hle, hsaves⟩
    have hlost := lost_of_hidden hab
    refine ⟨ha.of_hidden hab, hlost ▸ hle, fun hb => ?_⟩
    have h := hsaves (hlost.symm.trans hb)
    exact h.of_flushes (flushes_of_shifts (shifts_of_hidden ha hab)) (h.fits.of_hidden ha hab)
  · rintro a b c hc hab ⟨ha, hle, hsaves⟩
    have hstep := lost_le_of_step hab
    refine ⟨ha.of_step hab, hle.trans hstep, fun hb => ?_⟩
    have h := hsaves (by omega)
    exact h.of_flushes (flushes_of_shifts (shifts_of_step ha hab (hcs c hc) (by omega)))
      (h.fits.of_step hab)

theorem of_new (h : Saves l₀ l) (hs : l.Sound) (hm : l.Course cs l')
    (hcs : ∀ c ∈ cs, (c.Makes ∨ c.Quiet) ∧ l.page c.target = none) : Saves l₀ l' := by
  refine (hm.preserves (P := fun k => k.Sound ∧ Saves l k ∧ Saves l₀ k)
    ⟨hs, .refl h.fits, h⟩ ?_ ?_).2.2
  · rintro a b hab ⟨ha, hl, h₀⟩
    have hf := flushes_of_shifts (shifts_of_hidden ha hab)
    have hfit := hl.fits.of_hidden ha hab
    exact ⟨ha.of_hidden hab, hl.of_flushes hf hfit, h₀.of_flushes hf hfit⟩
  · rintro a b c hc hab ⟨ha, hl, h₀⟩
    have hf := flushes_of_step ha hab (hcs c hc).1 (hl.pending_none (hcs c hc).2)
    have hfit := hl.fits.of_step hab
    exact ⟨ha.of_step hab, hl.of_flushes hf hfit, h₀.of_flushes hf hfit⟩

theorem of_reads {s : SpaceId} {a sp : VirtAddr} {k len : Nat} {ws : List World}
    {bs : List UInt8} {e : Option Failure} (h : Saves l₀ l)
    (hr : Reads s a sp k len ws bs e l l') (hs : l.Sound) : Saves l₀ l' := by
  induction hr with
  | done | overflow => exact h
  | stops _ _ _ hb hw =>
      exact h.of_quiet hs hw.course fun c hc =>
        ⟨(balks_changes hb c hc).1, (balks_changes hb c hc).2.2⟩
  | piece _ _ _ ho hw _ _ ih =>
      exact ih (h.of_quiet hs hw.course fun c hc =>
        ⟨(opens_changes ho c hc).1, (opens_changes ho c hc).2.2⟩) (hs.of_course hw.course)

theorem of_undoes {dst : SpaceId} (h : Saves l₀ l) (hs : l.Sound) (hv : l.Vacant dst)
    (hd : l.Undoes dst cs l') : Saves l₀ l' := by
  refine h.of_new hs hd.course.course fun c hc => ⟨hd.kinds c hc, ?_⟩
  have hnone := hv c.target.page
  rwa [← hd.within c hc] at hnone

theorem of_adds {src dst : SpaceId} {vs : List VirtPage} (h : Saves l₀ l) (hs : l.Sound)
    (ha : l.Adds src dst vs cs l') : Saves l₀ l' :=
  h.of_new hs ha.course.course fun c hc => ⟨.inl (ha.makes c hc), (ha.new c hc).2.2⟩

end Saves

end Layout

namespace Op

variable {m : Machine} {op : Op} {l₀ : Layout}

/-- Operations that store to no page of a file and map no page anew that is mapped.
Where pages are copied to there are none. -/
def Calm (m : Machine) : Op → Prop
  | write s a data sp => ∀ x ∈ ((write s a data sp).run m).1.stored, m.segment? x.id = none
  | claim s a | fault s a _ _ => m.mapping? ⟨s, a.page⟩ = none
  | copyFrom _ dst _ => ∀ v, m.page? ⟨dst, v⟩ = none
  | _ => True

def SavesThrough (l₀ : Layout) (m : Machine) {α : Type} (x : Step Machine α) : Prop :=
  Ends x m (fun _ t => t.losses = m.losses → l₀.Saves t.layout)
    (fun _ t => t.losses = m.losses → l₀.Saves t.layout)

theorem SavesThrough.perform {α : Type} {x : Step Machine α} (hx : SavesThrough l₀ m x)
    (hl : (Machine.perform x m).2.losses = m.losses) : l₀.Saves (Machine.perform x m).2.layout :=
  Machine.perform_ends (Q := fun _ t => t.losses = m.losses → l₀.Saves t.layout) hx hl

section Operations

variable {s src dst : SpaceId} {a sp : VirtAddr} {order : List VirtPage}

theorem saves_gives {α : Type} {x : Step Machine α} (hs : m.layout.Sound) (h : l₀.Saves m.layout)
    (hx : Ends x m (fun _ t => Gives m op t) (fun _ _ => False)) : SavesThrough l₀ m x := by
  refine hx.mono ?_ fun _ _ h => h.elim
  intro _ t hg
  obtain ⟨cs, hcs, hc, -⟩ := hg
  exact h.of_calm hs hc fun c hmem => (destroy_changes hcs c hmem).1

theorem saves_alloc {type : PageType} {writable : Bool} {loader : Option Loader}
    (hs : m.layout.Sound) (h : l₀.Saves m.layout) :
    SavesThrough l₀ m (Machine.alloc s type a writable loader) := by
  apply Machine.alloc_ends.mono
  · intro _ t hd
    obtain ⟨kind, -, hd⟩ := hd
    exact h.of_calm hs (.single hd) (by simp [Change.Quiet])
  · intro e t ht _
    exact ht.2 ▸ h

theorem saves_mmap {len offset : Nat} {writable : Bool} {file : FileId} (hs : m.layout.Sound)
    (hu : m.layout.Unpinned) (h : l₀.Saves m.layout) :
    SavesThrough l₀ m (Machine.mmap s a len writable file offset) := by
  apply (Machine.mmap_ends hu).mono
  · intro r t hw
    obtain ⟨-, -, hw⟩ := hw
    exact h.of_calm hs hw.course (by simp [Change.Quiet])
  · intro e t ht _
    exact ht.2 ▸ h

theorem saves_mmapDescriptor {len fd offset : Nat} {writable : Bool} {fds : Descriptors}
    (hs : m.layout.Sound) (hu : m.layout.Unpinned) (h : l₀.Saves m.layout) :
    SavesThrough l₀ m (Machine.mmapDescriptor s a len writable fd fds offset) := by
  apply (Machine.mmapDescriptor_ends hu).mono
  · intro r t hw
    obtain ⟨file, -, -, -, hw⟩ := hw
    exact h.of_calm hs hw.course (by simp [Change.Quiet])
  · intro e t ht _
    exact ht.2 ▸ h

theorem saves_claim (hs : m.layout.Sound) (hu : m.layout.Unpinned) (hq : (claim s a).Calm m)
    (h : l₀.Saves m.layout) : SavesThrough l₀ m (Machine.claim s a) := by
  apply (Machine.claim_ends hs hu).mono
  · intro _ t hc
    obtain ⟨page, cs, -, hc, -⟩ := hc
    rcases hc.loads with hloads | ⟨-, hne⟩
    · exact h.of_calm hs hc.course fun c hmem => (Layout.loads_changes hloads c hmem).1
    · exact absurd hq hne
  · intro e t ht
    exact h.of_calm hs (.nil ht.2.reach) (by simp)

theorem saves_fault {flags : FaultFlags} (hs : m.layout.Sound) (hu : m.layout.Unpinned)
    (hq : (fault s a flags sp).Calm m) (h : l₀.Saves m.layout) :
    SavesThrough l₀ m (Machine.handleFault s a flags sp) := by
  apply (Machine.handleFault_ends hs hu).mono
  · intro _ t hf
    obtain ⟨-, cs, hf, hw, -⟩ := hf
    rcases hf with ho | ⟨-, hne⟩
    · exact h.of_calm hs hw.course fun c hmem => (Layout.opens_changes ho c hmem).1
    · exact absurd hq hne
  · intro e t hb
    obtain ⟨-, cs, hb, hw⟩ := hb
    exact h.of_calm hs hw.course fun c hmem => (Layout.balks_changes hb c hmem).1

theorem saves_setUpStack (hs : m.layout.Sound) (hu : m.layout.Unpinned) (h : l₀.Saves m.layout) :
    SavesThrough l₀ m (Machine.setUpStack s) := by
  apply (Machine.setUpStack_ends hs hu).mono
  · intro _ t hd
    obtain ⟨a, l, cs, -, hd, hc, -⟩ := hd
    have hloads := hc.loads_new hs hd
    refine h.of_calm hs ((Layout.Course.single hd).append hc.course) fun c hmem => ?_
    rcases List.mem_cons.mp hmem with rfl | hmem
    · trivial
    · exact (Layout.loads_changes hloads c hmem).1
  · intro e t hw
    obtain ⟨-, hw | ⟨a, -, -, hw⟩⟩ := hw
    · exact h.of_calm hs hw.course (by simp)
    · exact h.of_calm hs hw.course (by simp [Change.Quiet])

theorem saves_fork {refusals : Trap} (hs : m.layout.Sound) (hu : m.layout.Unpinned)
    (ha : (fork src dst refusals order).Admissible m) (h : l₀.Saves m.layout) :
    SavesThrough l₀ m (Machine.forkInOrder src dst refusals order) := by
  obtain ⟨hne, hv, ho⟩ := ha
  apply (Machine.forkInOrder_ends hs hu hne (Machine.nodup_of_perm_keys ho) hv refusals).mono
  · intro _ t hc _
    obtain ⟨cs, hc⟩ := hc
    exact h.of_adds hs hc.toAdds
  · intro e t hd _
    obtain ⟨-, cs, hd⟩ := hd
    exact h.of_undoes hs hv hd

theorem saves_copyFrom (hs : m.layout.Sound) (hu : m.layout.Unpinned)
    (ha : (copyFrom src dst order).Admissible m) (h : l₀.Saves m.layout) :
    SavesThrough l₀ m (Machine.copyInOrder src dst order) := by
  obtain ⟨hne, ho⟩ := ha
  apply (Machine.copyInOrder_ends hs hu hne (Machine.nodup_of_perm_keys ho)).mono
  · intro _ t hc _
    obtain ⟨cs, hc⟩ := hc
    exact h.of_adds hs hc.toAdds
  · intro e t hd _
    obtain ⟨-, cs, hd⟩ := hd
    exact h.of_adds hs hd

end Operations

theorem saves_run (hs : m.layout.Sound) (hu : m.layout.Unpinned) (ha : op.Admissible m)
    (hq : op.Calm m) (hl : (op.run m).2.losses = m.losses) (h : l₀.Saves m.layout) :
    l₀.Saves (op.run m).2.layout := by
  have hsame {t : Machine} (ht : t.layout = m.layout) : l₀.Saves t.layout := ht ▸ h
  cases op with
  | create s t => exact hsame (Machine.layout_create hs ha t)
  | refuse s t => exact hsame (Machine.layout_setSpace_same m rfl rfl)
  | armDisk reads writes => exact hsame (layout_armDisk m reads writes)
  | armFile file => exact hsame (Machine.layout_withFile_same m rfl)
  | munmap => exact (saves_gives hs h (gives_munmap hs hu)).perform hl
  | remove => exact (saves_gives hs h (gives_remove hs hu)).perform hl
  | kill => exact (saves_gives hs h (gives_kill hs hu ha)).perform hl
  | drop => exact (saves_gives hs h (gives_drop hs hu ha)).perform hl
  | alloc => exact (saves_alloc hs h).perform hl
  | mmap => exact (saves_mmap hs hu h).perform hl
  | mmapDescriptor => exact (saves_mmapDescriptor hs hu h).perform hl
  | claim => exact (saves_claim hs hu hq h).perform hl
  | fault => exact (saves_fault hs hu hq h).perform hl
  | setUpStack => exact (saves_setUpStack hs hu h).perform hl
  | fork => exact (saves_fork hs hu ha h).perform hl
  | copyFrom => exact (saves_copyFrom hs hu ha h).perform hl
  | read s a len sp =>
      refine Machine.performRead_ends (Q := fun _ t => l₀.Saves t.layout) hs hu len ?_
      intro e bs t hr
      exact h.of_reads hr hs
  | write s a data sp =>
      refine Machine.performWrite_ends (Q := fun r t => (∀ x ∈ r.stored, m.segment? x.id = none) →
        l₀.Saves t.layout) hs hu data ?_ hq
      intro e t hw hps
      exact Layout.Saves.of_writes hw h hs fun x hx => hps x.1 (List.mem_map_of_mem hx)

end Op

inductive CalmRuns (m₀ : Machine) : Machine → Prop
  | nil : CalmRuns m₀ m₀
  | snoc {m : Machine} {op : Op} (h : CalmRuns m₀ m) (ha : op.Admissible m) (hq : op.Calm m)
      (hl : (op.run m).2.losses = m.losses) : CalmRuns m₀ (op.run m).2

theorem CalmRuns.saves {m₀ m : Machine} (h : CalmRuns m₀ m) (hs : m₀.layout.Sound)
    (hu : m₀.layout.Unpinned) (hf : m₀.layout.Fitting) :
    m.layout.Sound ∧ m.layout.Unpinned ∧ Layout.Saves m₀.layout m.layout := by
  induction h with
  | nil => exact ⟨hs, hu, .refl hf⟩
  | snoc _ ha hq hl ih =>
      obtain ⟨hs, hu, hsaves⟩ := ih
      obtain ⟨cs, hw, -⟩ := Op.goes_run hs hu ha
      exact ⟨hs.of_course hw.course, hw.unpinned, Op.saves_run hs hu ha hq hl hsaves⟩

/-- What only one page has to write reaches the file, unless it is still to be
written. -/
theorem CalmRuns.reaches {m₀ m : Machine} (h : CalmRuns m₀ m) (hs : m₀.layout.Sound)
    (hu : m₀.layout.Unpinned) (hf : m₀.layout.Fitting) {id : PageId} {g : Segment} {b : PageBytes}
    (hid : m₀.pending? id = some (g, b)) :
    m.pending? id = some (g, b) ∨
      ∀ i, g.Covers g.file i → (∀ o g' b', o ≠ id → m₀.pending? o = some (g', b') →
        ¬g'.Covers g.file i) → m.fileByte? g.file i = b[i - g.offset]? := by
  obtain ⟨-, -, hsaves⟩ := h.saves hs hu hf
  rw [Machine.pending?_eq] at hid ⊢
  refine (hsaves.saved id g b hid).imp_right fun hfile i hi hsole => ?_
  obtain ⟨o, g', b', hp, hcov, hbyte⟩ := hfile i hi
  by_cases ho : o = id
  · subst ho
    obtain ⟨rfl, rfl⟩ := Prod.mk.inj (Option.some.inj (hid.symm.trans hp))
    exact hbyte
  · exact absurd hcov (hsole o g' b' ho ((Machine.pending?_eq m₀ o).trans hp))

namespace Machine

variable {m t : Machine} {s : SpaceId} {a sp : VirtAddr} {id : PageId} {page : Page}
  {f : FrameId} {flags : FaultFlags}

/-- A page has changes that were not written yet, by its own mark or by that in
its mapping. -/
def modified (m : Machine) (id : PageId) : Bool :=
  (m.page? id).any Page.dirty || m.hasFlag id .dirty

/-- A page in a frame was mapped anew and nothing else has moved. Of the marks
that it has changes its own is left. -/
structure Remapped (m : Machine) (id : PageId) (page : Page) (t : Machine) : Prop where
  rest : ∃ f p, m.layout.InFrame id page f p ∧ t.layout = m.layout.remap id page p
  modified : ∀ o, t.modified o = if o = id then page.dirty else m.modified o
  pending : ∀ o, t.pending? o = if o = id ∧ page.dirty = false then none else m.pending? o

theorem Remapped.of_layout {p : PhysPage} (hs : m.layout.Sound)
    (hin : m.layout.InFrame id page f p) (hl : t.layout = m.layout.remap id page p) :
    m.Remapped id page t where
  rest := ⟨f, p, hin, hl⟩
  modified o := by
    change t.layout.changed o = if o = id then page.dirty else m.layout.changed o
    rw [hl, Layout.changed_remap hin.1]
  pending o := by
    rw [pending?_eq, pending?_eq, hl, Layout.pending?_remap hs hin.1]

theorem Remapped.modified_eq (h : m.Remapped id page t) (hpage : m.page? id = some page)
    (hmark : page.dirty = true ∨ m.hasFlag id .dirty = false) : t.modified = m.modified := by
  funext o
  rw [h.modified]
  split
  next ho =>
    rw [ho, Machine.modified, hpage, Option.any_some]
    rcases hmark with hd | hd <;> simp [hd]
  next => rfl

theorem Remapped.pending_eq (h : m.Remapped id page t) (hpage : m.page? id = some page)
    (hmark : page.dirty = true ∨ m.hasFlag id .dirty = false) : t.pending? = m.pending? := by
  funext o
  rw [h.pending]
  split
  next ho =>
    obtain ⟨rfl, hd⟩ := ho
    have hclean : m.layout.changed o = false := by
      have hpage' : m.layout.page o = some page := hpage
      have hhard : m.layout.hardDirty o = false := hmark.resolve_left (by simp [hd])
      rw [Layout.changed, hpage', Option.any_some, hd, hhard, Bool.false_or]
    rw [pending?_eq, Layout.pending?_of_clean]
    intro x hx
    rw [Layout.hold_dirty hx, hclean]
  next => rfl

theorem claimPage_remaps (hs : m.layout.Sound) (hpage : m.layout.page id = some page)
    (hf : page.frame? = some f) :
    Ends (claimPage id page) m (fun _ t => m.Remapped id page t) (fun _ _ => True) := by
  obtain ⟨p, hp⟩ := hs.exists_phys? (show m.layout.home? id = some f by
    rw [Layout.home?, hpage, Option.bind_some, hf])
  obtain ⟨fr, hfr, rfl⟩ := Option.map_eq_some_iff.mp hp
  rw [claimPage, hf]
  simp only [ends_bind]
  rw [ends_frame hfr]
  exact (install_ends page.writable).mono
    (fun _ _ hl => .of_layout hs ⟨hpage, hf, hp⟩ hl) fun _ _ _ => trivial

theorem Remapped.of_emit {e : Event} (he : e.isLoss = false)
    (h : (m.emit e).Remapped id page t) : m.Remapped id page t := by
  have hl := layout_emit m he
  obtain ⟨hrest, hmod, hpend⟩ := h
  refine ⟨by rwa [hl] at hrest, fun o => ?_, fun o => ?_⟩
  · exact hmod o
  · rw [hpend, pending?_eq, pending?_eq, hl]

theorem handleFault_remaps (hs : m.layout.Sound)
    (hpage : m.layout.page ⟨s, a.page⟩ = some page) (hf : page.frame? = some f) :
    Ends (handleFault s a flags sp) m (fun _ t => m.Remapped ⟨s, a.page⟩ page t)
      (fun _ _ => True) := by
  have hl : (m.emit (.fault a flags)).layout = m.layout := layout_emit m rfl
  have hfind : (m.emit (.fault a flags)).find? s a = some page := hpage
  simp only [handleFault, ends_bind, ends_note, ends_get, ends_requireOr, hfind, implies_true,
    and_true]
  intro _ _ _
  have hclaim : Ends (claimPage ⟨s, a.page⟩ page) (m.emit (.fault a flags)) _ _ :=
    claimPage_remaps (by rw [hl]; exact hs) (by rw [hl]; exact hpage) hf
  exact hclaim.mono (fun _ _ h => h.of_emit rfl) fun _ _ _ => trivial

end Machine

namespace Op

/-- A page is asked for, by its address or by an access that failed. -/
def Asks (s : SpaceId) (a : VirtAddr) : Op → Prop
  | claim s' a' | fault s' a' _ _ => s' = s ∧ a' = a
  | _ => False

theorem Asks.admissible {m : Machine} {s : SpaceId} {a : VirtAddr} {op : Op} (h : op.Asks s a) :
    op.Admissible m := by
  cases op with
  | claim | fault => trivial
  | _ => exact h.elim

theorem remaps_run {m : Machine} {s : SpaceId} {a : VirtAddr} {page : Page} {f : FrameId} {op : Op}
    (hop : op.Asks s a) (hs : m.layout.Sound) (hpage : m.layout.page ⟨s, a.page⟩ = some page)
    (hf : page.frame? = some f) (hok : (op.run m).1.failure = none) :
    m.Remapped ⟨s, a.page⟩ page (op.run m).2 := by
  cases op with
  | claim s' a' =>
      obtain ⟨rfl, rfl⟩ := hop
      obtain ⟨u, hx⟩ := Machine.exists_ok_of_perform hok
      have hfind : m.find? s' a' = some page := hpage
      have h : Ends (Machine.claim s' a') m (fun _ t => m.Remapped ⟨s', a'.page⟩ page t)
          (fun _ _ => True) := by
        simp only [Machine.claim, ends_bind, ends_get, hfind]
        exact Machine.claimPage_remaps hs hpage hf
      exact h.of_ok hx
  | fault s' a' flags sp =>
      obtain ⟨rfl, rfl⟩ := hop
      obtain ⟨u, hx⟩ := Machine.exists_ok_of_perform hok
      exact (Machine.handleFault_remaps hs hpage hf).of_ok hx
  | _ => exact hop.elim

end Op

/-- A page in a frame that is asked for again is mapped anew, which clears the
mark of a change in its mapping. Unless that mark was the only one, the page
has its changes still, and they reach the file when it leaves its frame. -/
theorem Reachable.resident_claimed {m : Machine} (h : Reachable m) {s : SpaceId} {a : VirtAddr}
    {page : Page} {op : Op} (hop : op.Asks s a) (hpage : m.page? ⟨s, a.page⟩ = some page)
    (hr : page.resident = true) (hok : (op.run m).1.failure = none) :
    m.Remapped ⟨s, a.page⟩ page (op.run m).2 ∧
      ((page.dirty = true ∨ m.hasFlag ⟨s, a.page⟩ .dirty = false) →
        (op.run m).2.modified = m.modified ∧ (op.run m).2.pending? = m.pending? ∧
          ∀ u, CalmRuns (op.run m).2 u → ∀ g b, m.pending? ⟨s, a.page⟩ = some (g, b) →
            u.pending? ⟨s, a.page⟩ = some (g, b) ∨
              ∀ i, g.Covers g.file i → (∀ o g' b', o ≠ ⟨s, a.page⟩ →
                m.pending? o = some (g', b') → ¬g'.Covers g.file i) →
                  u.fileByte? g.file i = b[i - g.offset]?) := by
  obtain ⟨hs, hu⟩ := h.sound
  obtain ⟨f, hf⟩ := Option.isSome_iff_exists.mp hr
  have hre := Op.remaps_run hop hs hpage hf hok
  refine ⟨hre, fun hmark => ⟨hre.modified_eq hpage hmark, hre.pending_eq hpage hmark, ?_⟩⟩
  intro u hcalm g b hgb
  obtain ⟨cs, hw, -⟩ := Op.goes_run hs hu hop.admissible
  have hpend := hre.pending_eq hpage hmark
  rw [← hpend] at hgb ⊢
  exact hcalm.reaches (hs.of_course hw.course) hw.unpinned (h.fitting.of_course hs hw.course) hgb

theorem resident_claimed_written_page :
    ∃ m m' page page', m = ((Op.write 0 ⟨8192⟩ [88] ⟨0⟩).run ((Op.mmap 0 ⟨8192⟩ 1 true 0 0).run
        (.boot {} (.ofCapacity 1) none [.ofList [111]])).2).2 ∧
      m' = ((Op.claim 0 ⟨4096⟩).run ((Op.alloc 0 .anon ⟨4096⟩ true none).run
        ((Op.armFile 0 1 .never .never .never .never).run m).2).2).2 ∧
      m.page? ⟨0, ⟨2⟩⟩ = some page ∧ m'.page? ⟨0, ⟨2⟩⟩ = some page' ∧
      m.Remapped ⟨0, ⟨2⟩⟩ page ((Op.claim 0 ⟨8192⟩).run m).2 ∧
      m.modified ⟨0, ⟨2⟩⟩ = true ∧ ((Op.claim 0 ⟨8192⟩).run m).2.modified ⟨0, ⟨2⟩⟩ = false ∧
      m'.Remapped ⟨0, ⟨2⟩⟩ page' ((Op.claim 0 ⟨8192⟩).run m').2 ∧
      m'.modified ⟨0, ⟨2⟩⟩ = true ∧
      ((Op.claim 0 ⟨8192⟩).run m').2.modified = m'.modified ∧
      ((Op.claim 0 ⟨8192⟩).run m').2.pending? = m'.pending? := by
  have h₀ : Starts (.boot {} (.ofCapacity 1) none [.ofList [111]]) :=
    ⟨{}, 1, none, [.ofList [111]], by decide, by rintro d ⟨⟩, rfl⟩
  have hr : Runs (.boot {} (.ofCapacity 1) none [.ofList [111]])
      [(.mmap 0 ⟨8192⟩ 1 true 0 0, _), (.write 0 ⟨8192⟩ [88] ⟨0⟩, _)] _ :=
    .cons trivial (.cons trivial (.nil _))
  have hr' : Runs (.boot {} (.ofCapacity 1) none [.ofList [111]])
      [(.mmap 0 ⟨8192⟩ 1 true 0 0, _), (.write 0 ⟨8192⟩ [88] ⟨0⟩, _),
        (.armFile 0 1 .never .never .never .never, _), (.alloc 0 .anon ⟨4096⟩ true none, _),
        (.claim 0 ⟨4096⟩, _)] _ :=
    .cons trivial (.cons trivial (.cons trivial (.cons trivial (.cons trivial (.nil _)))))
  have h : Reachable ((Op.write 0 ⟨8192⟩ [88] ⟨0⟩).run ((Op.mmap 0 ⟨8192⟩ 1 true 0 0).run
      (.boot {} (.ofCapacity 1) none [.ofList [111]])).2).2 := ⟨_, _, h₀, hr⟩
  have h' : Reachable ((Op.claim 0 ⟨4096⟩).run ((Op.alloc 0 .anon ⟨4096⟩ true none).run
      ((Op.armFile 0 1 .never .never .never .never).run ((Op.write 0 ⟨8192⟩ [88] ⟨0⟩).run
        ((Op.mmap 0 ⟨8192⟩ 1 true 0 0).run
          (.boot {} (.ofCapacity 1) none [.ofList [111]])).2).2).2).2).2 := ⟨_, _, h₀, hr'⟩
  generalize hm : ((Op.write 0 ⟨8192⟩ [88] ⟨0⟩).run ((Op.mmap 0 ⟨8192⟩ 1 true 0 0).run
    (.boot {} (.ofCapacity 1) none [.ofList [111]])).2).2 = m at h h'
  generalize hm' : ((Op.claim 0 ⟨4096⟩).run ((Op.alloc 0 .anon ⟨4096⟩ true none).run
    ((Op.armFile 0 1 .never .never .never .never).run m).2).2).2 = m' at h'
  obtain ⟨page, hpage, hp⟩ := (Option.any_eq_true ..).mp (show (m.page? ⟨0, ⟨2⟩⟩).any
      (fun p => p.resident) = true by
    rw [← hm]
    decide +kernel)
  obtain ⟨page', hpage', hp'⟩ := (Option.any_eq_true ..).mp (show (m'.page? ⟨0, ⟨2⟩⟩).any
      (fun p => p.resident ∧ p.dirty = true) = true by
    rw [← hm', ← hm]
    decide +kernel)
  rw [decide_eq_true_iff] at hp'
  have hasks : (Op.claim 0 ⟨8192⟩).Asks 0 ⟨8192⟩ := ⟨rfl, rfl⟩
  obtain ⟨hre, -⟩ := h.resident_claimed hasks hpage hp (by rw [← hm]; decide +kernel)
  obtain ⟨hre', hkept⟩ := h'.resident_claimed hasks hpage' hp'.1
    (by rw [← hm', ← hm]; decide +kernel)
  obtain ⟨hmod, hpend, -⟩ := hkept (.inl hp'.2)
  exact ⟨m, m', page, page', rfl, hm'.symm, hpage, hpage', hre, by rw [← hm]; decide +kernel,
    by rw [← hm]; decide +kernel, hre', by rw [← hm', ← hm]; decide +kernel, hmod, hpend⟩

end Pager
