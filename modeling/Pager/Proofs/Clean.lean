import Pager.Proofs.Inherited
import Pager.Proofs.Lifetimes

namespace Pager

open Step

namespace Layout

variable {l l' : Layout} {id o : PageId} {page : Page} {c : Change} {cs : List Change}
  {f : FileId} {i : Nat} {g : Segment} {b : PageBytes}

def changed (l : Layout) (id : PageId) : Bool := (l.page id).any Page.dirty || l.hardDirty id

theorem changed_congr (h : l'.changed o = true) (hpage : l'.page o = l.page o)
    (hd : l'.hardDirty o = l.hardDirty o) : l.changed o = true := by
  rwa [changed, hpage, hd] at h

theorem changed_of_update (h : l'.changed o = true) {q : Option Page} {e : Option Entry}
    (hpage : l'.page = Function.update l.page id q)
    (hentry : l'.entry = Function.update l.entry id e) (he : e.any (fun e => e.has .dirty) = false)
    (hq : q.any Page.dirty = true → l.changed id = true) : l.changed o = true := by
  rw [changed, hardDirty, hpage, hentry] at h
  by_cases ho : o = id
  · subst ho
    rw [Function.update_self, Function.update_self, he, Bool.or_false] at h
    exact hq h
  · rwa [Function.update_of_ne ho, Function.update_of_ne ho] at h

theorem changed_of_entry (h : l'.changed o = true) {e : Option Entry}
    (hpage : l.page id = some page) (hpage' : l'.page = l.page)
    (hentry : l'.entry = Function.update l.entry id e)
    (he : e.any (fun e => e.has .dirty) = false) : l.changed o = true := by
  refine changed_of_update h (q := some page) (hpage'.trans ?_) hentry he fun hd => ?_
  · rw [← hpage, Function.update_eq_self]
  · rw [changed, hpage, hd, Bool.true_or]

theorem has_fresh_dirty (p : PhysPage) (w : Bool) :
    (some (Entry.fresh p w)).any (fun e => e.has .dirty) = false := by
  rw [Option.any_some, Entry.has_fresh]

theorem hold_dirty {x : Hold} (hx : l.hold? id = some x) : x.dirty = l.changed id := by
  obtain ⟨page, k, dirty, hin, hc, hd⟩ := exists_of_hold? hx
  rw [hd, changed, hin.1, Option.any_some, Page.dirty, hc]

theorem changed_of_hidden (hm : l.Hidden l') (h : l'.changed o = true) : l.changed o = true := by
  cases hm with
  | sweep entry hand hentry hhand =>
      refine changed_congr h rfl ?_
      rcases hentry o with he | he
      · exact hardDirty_congr he
      · exact hardDirty_set (by decide) _ he
  | mark id =>
      refine changed_congr h rfl ?_
      by_cases ho : o = id
      · subst ho
        exact hardDirty_set (by decide) _ (Function.update_self ..)
      · exact hardDirty_congr (Function.update_of_ne ho ..)
  | grow | pin | unpin | rerun | scribble => exact h
  | saveAnon => exact changed_of_update h rfl rfl rfl (by rintro ⟨⟩)
  | keepAnon id page f stored hpage => exact changed_of_entry h hpage rfl rfl rfl
  | saveFile => exact changed_of_update h rfl rfl rfl (by rintro ⟨⟩)
  | keepFile id page f p g span dirty k hpage hf hc hp hd =>
      refine changed_of_update h rfl rfl rfl fun _ => ?_
      rw [changed, hpage, Option.any_some, Page.dirty, hc]
      exact hd
  | swapIn => exact changed_of_update h rfl rfl (has_fresh_dirty _ _) (by rintro ⟨⟩)
  | readIn => exact changed_of_update h rfl rfl (has_fresh_dirty _ _) (by rintro ⟨⟩)
  | remap id page f p hpage => exact changed_of_entry h hpage rfl rfl (has_fresh_dirty _ _)

theorem changed_of_step (hm : l.ChangeStep c l') (h : l'.changed o = true) :
    l.changed o = true ∨
      ¬c.Storeless ∧ o = c.target ∧ ∃ page, l.page o = some page ∧ page.writable = true := by
  cases hm with
  | register id page hpage hl hh =>
      left
      have hd : page.dirty = false := by
        cases hc : page.content <;> simp_all [Page.loaded, Page.dirty]
      by_cases ho : o = id
      · subst ho
        have h : ((Function.update l.page o (some page) o).any Page.dirty ||
          l.hardDirty o) = true := h
        rw [Function.update_self, Option.any_some, hd, Bool.false_or] at h
        rw [changed, h, Bool.or_true]
      · exact changed_congr h (Function.update_of_ne ho ..) rfl
  | load => exact .inl (changed_of_update h rfl rfl (has_fresh_dirty _ _) (by rintro ⟨⟩))
  | refresh id page f p hf =>
      exact .inl (changed_of_entry h hf.1 rfl rfl (has_fresh_dirty _ _))
  | store id page f p j bs hf hw he =>
      by_cases ho : o = id
      · exact .inr ⟨fun h => h, ho, page, ho ▸ hf.1, hw⟩
      · exact .inl (changed_congr h rfl (hardDirty_congr (Function.update_of_ne ho ..)))
  | fill => exact .inl h
  | destroyIdle | destroySlot | destroyFrame | destroyFile | destroyLost =>
      exact .inl (changed_of_update h rfl rfl rfl (by rintro ⟨⟩))

def Clean (l : Layout) : Prop :=
  ∀ id, l.changed id = true → ∃ page, l.page id = some page ∧ page.writable = true

namespace Clean

theorem of_hidden (h : l.Clean) (hm : l.Hidden l') : l'.Clean := by
  intro o ho
  obtain ⟨page, hpage, hw⟩ := h o (changed_of_hidden hm ho)
  obtain ⟨q, hq, hcont⟩ := (continues_of_rel (rel_of_hidden hm o)).1 page hpage
  exact ⟨q, hq, hcont.writable.trans hw⟩

theorem of_step (h : l.Clean) (hs : l.Sound) (hm : l.ChangeStep c l') : l'.Clean := by
  intro o ho
  obtain ⟨page, hpage, hw⟩ : ∃ page, l.page o = some page ∧ page.writable = true := by
    rcases changed_of_step hm ho with hold | ⟨-, -, hw⟩
    · exact h o hold
    · exact hw
  cases c with
  | destroy id =>
      have hne : o ≠ id := by
        rintro rfl
        cases hm <;> simp [changed, hardDirty, forget] at ho
      exact ⟨page, (page_of_step hm hne).trans hpage, hw⟩
  | _ =>
      obtain ⟨q, hq, hcont⟩ := continues_of_step hs hm trivial hpage
      exact ⟨q, hq, hcont.writable.trans hw⟩

theorem of_course (h : l.Clean) (hs : l.Sound) (hm : l.Course cs l') : l'.Clean := by
  refine (hm.preserves (P := fun k => k.Sound ∧ k.Clean) ⟨hs, h⟩ ?_ ?_).2
  · exact fun hab h => ⟨h.1.of_hidden hab, h.2.of_hidden hab⟩
  · exact fun _ hab h => ⟨h.1.of_step hab, h.2.of_step h.1 hab⟩

theorem changed_eq_false (h : l.Clean) (hpage : l.page id = some page)
    (hw : page.writable = false) : l.changed id = false := by
  rw [Bool.eq_false_iff]
  intro hc
  obtain ⟨q, hq, hwq⟩ := h id hc
  obtain rfl := Option.some.inj (hpage.symm.trans hq)
  rw [hw] at hwq
  cases hwq

theorem pending?_eq_none (h : l.Clean) (hpage : l.page id = some page)
    (hw : page.writable = false) : l.pending? id = none :=
  pending?_of_clean fun _ hx => (hold_dirty hx).trans (h.changed_eq_false hpage hw)

end Clean

/-- No page has a change that belongs in this byte of a file. -/
def Sealed (l : Layout) (f : FileId) (i : Nat) : Prop :=
  ∀ id g b, l.pending? id = some (g, b) → ¬g.Covers f i

/-- No page that may be written has this byte of a file. -/
def Guards (l : Layout) (f : FileId) (i : Nat) : Prop :=
  ∀ id page g, l.page id = some page → page.segment? = some g → g.Covers f i →
    page.writable = false

theorem Sealed.of_flushes (h : l.Sealed f i) (hm : l.Flushes l') :
    l'.Sealed f i ∧ (l'.data f)[i]? = (l.data f)[i]? := by
  refine ⟨fun o g b hp => h o g b (hm.pending?_of_some hp), ?_⟩
  cases hm with
  | same hp hd => rw [hd]
  | spill id g b k hx ho hn hd =>
      rw [hd, Function.update_apply]
      split
      next hf =>
        subst hf
        rw [Segment.getElem?_spill, if_neg]
        rintro ⟨hlo, hhi, -⟩
        exact h id g b hx ⟨rfl, hlo, by omega⟩
      next => rfl

theorem exists_pending?_of_step (hm : l.ChangeStep c l') (hp : l'.pending? o = some (g, b)) :
    (∃ b', l.pending? o = some (g, b')) ∨ ¬c.Storeless ∧ o = c.target := by
  obtain ⟨x, hx, hd, rfl, -⟩ := exists_of_pending? hp
  obtain ⟨y, hy, hg, -⟩ := hold?_of_step hm hx
  refine (changed_of_step hm ((hold_dirty hx).symm.trans hd)).imp (fun h => ?_)
    fun h => ⟨h.1, h.2.1⟩
  exact ⟨_, hg ▸ pending?_of_hold? hy ((hold_dirty hy).trans h)⟩

theorem Sealed.of_step (h : l.Sealed f i) (hm : l.ChangeStep c l') (hc : c.Storeless) :
    l'.Sealed f i ∧ (l'.data f)[i]? = (l.data f)[i]? := by
  refine ⟨fun o g b hp => ?_, ?_⟩
  · obtain ⟨b', hb⟩ := (exists_pending?_of_step hm hp).resolve_right fun h => h.1 hc
    exact h o g b' hb
  · have hspill {id : PageId} {page : Page} {k : FrameId} {p : PhysPage} {g : Segment} {n j : Nat}
        {dirty : Bool} (hin : l.InFrame id page k p)
        (hcont : page.content = .file g n (dirty))
        (hd : (dirty || l.hardDirty id) = true) :
        (l.spill g p j f)[i]? = (l.data f)[i]? :=
      spill_other fun hcov => h id _ _
        (pending?_of_hold? (hold?_file hin hcont) hd) hcov.1
    cases hm with
    | destroyFile id page k p g span dirty hin hcont =>
        dsimp only
        split
        next hd => exact hspill hin hcont hd
        next => rfl
    | destroyLost id page k p g span dirty n hin hcont hd => exact hspill hin hcont hd
    | _ => rfl

theorem Sealed.data (h : l.Sealed f i) (hs : l.Sound) (hm : l.Course cs l')
    (hcs : ∀ c ∈ cs, c.Storeless) : (l'.data f)[i]? = (l.data f)[i]? := by
  refine (hm.preserves (P := fun k => k.Sound ∧ k.Sealed f i ∧ (k.data f)[i]? = (l.data f)[i]?)
    ⟨hs, h, rfl⟩ ?_ ?_).2.2
  · rintro a b hab ⟨ha, h, hd⟩
    obtain ⟨h', hd'⟩ := h.of_flushes (flushes_of_shifts (shifts_of_hidden ha hab))
    exact ⟨ha.of_hidden hab, h', hd'.trans hd⟩
  · rintro a b c hc hab ⟨ha, h, hd⟩
    obtain ⟨h', hd'⟩ := h.of_step hab (hcs c hc)
    exact ⟨ha.of_step hab, h', hd'.trans hd⟩

theorem Clean.sealed (h : l.Clean) (hg : l.Guards f i) : l.Sealed f i := by
  intro o g b hp hc
  obtain ⟨x, hx, hd, rfl, -⟩ := exists_of_pending? hp
  obtain ⟨page, hpage, hw⟩ := h o ((hold_dirty hx).symm.trans hd)
  have hseg := segment?_of_hold? hx
  rw [segment?, hpage, Option.bind_some] at hseg
  rw [hg o page _ hpage hseg hc] at hw
  cases hw

theorem Guards.of_hidden (h : l.Guards f i) (hm : l.Hidden l') : l'.Guards f i := by
  intro o q g hq hg hc
  obtain ⟨page, hpage, hcont⟩ := (continues_of_rel (rel_of_hidden hm o)).2 q hq
  have hseg : l'.segment? o = some g := by rw [segment?, hq, Option.bind_some, hg]
  rw [segment?_of_hidden hm, segment?, hpage, Option.bind_some] at hseg
  exact hcont.writable.trans (h o page g hpage hseg hc)

theorem Guards.of_step (h : l.Guards f i) (hs : l.Sound) (hm : l.ChangeStep c l') (hb : c.Bare)
    (hlast : c.Lasting) : l'.Guards f i := by
  intro o q g hq hg hc
  have hseg : l'.segment? o = some g := by rw [segment?, hq, Option.bind_some, hg]
  obtain ⟨page, hpage, hg'⟩ := Option.bind_eq_some_iff.mp (segment?_of_bare hm hb hseg)
  obtain ⟨r, hr, hcont⟩ := continues_of_step hs hm hlast hpage
  obtain rfl := Option.some.inj (hr.symm.trans hq)
  exact hcont.writable.trans (h o page g hpage hg' hc)

theorem data_of_lasting (hm : l.ChangeStep c l') (hc : c.Lasting) : l'.data = l.data := by
  cases hm with
  | destroyIdle | destroySlot | destroyFrame | destroyFile | destroyLost => exact hc.elim
  | _ => rfl

theorem Guards.data (h : l.Guards f i) (hcl : l.Clean) (hs : l.Sound) (hm : l.Course cs l')
    (hcs : ∀ c ∈ cs, c.Bare ∧ c.Lasting) : (l'.data f)[i]? = (l.data f)[i]? := by
  refine (hm.preserves (P := fun k => k.Sound ∧ k.Clean ∧ k.Guards f i ∧
    (k.data f)[i]? = (l.data f)[i]?) ⟨hs, hcl, h, rfl⟩ ?_ ?_).2.2.2
  · rintro a b hab ⟨ha, hcl, h, hd⟩
    obtain ⟨-, hd'⟩ := (hcl.sealed h).of_flushes (flushes_of_shifts (shifts_of_hidden ha hab))
    exact ⟨ha.of_hidden hab, hcl.of_hidden hab, h.of_hidden hab, hd'.trans hd⟩
  · rintro a b c hc hab ⟨ha, hcl, h, hd⟩
    obtain ⟨hb, hlast⟩ := hcs c hc
    exact ⟨ha.of_step hab, hcl.of_step ha hab, h.of_step ha hab hb hlast,
      (congrArg (fun d => (d f)[i]?) (data_of_lasting hab hlast)).trans hd⟩

theorem Grows.lasts {s : SpaceId} {sp : VirtAddr} (h : l.Grows s sp cs) :
    ∀ c ∈ cs, c.Bare ∧ c.Lasting := by
  refine fun c hc => ⟨?_, h.lasting c hc⟩
  cases c with
  | register o p =>
      obtain ⟨-, -, rfl, -⟩ := h.grown o p hc
      rfl
  | _ => trivial

def Unstored (l l' : Layout) : Prop := ∃ cs, l.Course cs l' ∧ ∀ c ∈ cs, c.Storeless

theorem Looked.unstored (h : l.Looked l') : l.Unstored l' := by
  obtain ⟨cs, hc, hcs⟩ := h
  exact ⟨cs, hc, fun c hmem => (hcs c hmem).storeless⟩

theorem Undoes.storeless {dst : SpaceId} (h : l.Undoes dst cs l') : ∀ c ∈ cs, c.Storeless := by
  intro c hc
  rcases h.kinds c hc with hm | hq
  · exact hm.storeless
  · cases c with
    | store => exact hq
    | _ => trivial

end Layout

namespace Op

variable {m : Machine} {op : Op}

theorem unstored_run (hs : m.layout.Sound) (hu : m.layout.Unpinned) (ha : op.Admissible m)
    (hop : ∀ s a data sp, op ≠ .write s a data sp) :
    m.layout.Unstored (op.run m).2.layout := by
  by_cases hl : op.Looks
  · exact (looked_run hs hu hl).unstored
  · cases outcome_run hs hu ha with
    | lasting cs hc hlast hreg hmakes =>
        refine ⟨cs, hc, fun c hmem => ?_⟩
        rcases hmakes with ho | hmakes
        · cases op with
          | write s a data sp => exact absurd rfl (hop s a data sp)
          | read | claim | fault => exact absurd trivial hl
          | _ => exact ho.elim
        · exact (hmakes c hmem).storeless
    | gone cs hc hcs =>
        refine ⟨cs, hc, fun c hmem => ?_⟩
        obtain ⟨id, rfl⟩ := hcs c hmem
        trivial
    | undone dst cs h => exact ⟨cs, h.course.course, h.storeless⟩

/-- An operation changes no byte of a file that no page has which may be written. -/
theorem data_of_run (hs : m.layout.Sound) (hu : m.layout.Unpinned) (ha : op.Admissible m)
    (hcl : m.layout.Clean) {f : FileId} {i : Nat} (hg : m.layout.Guards f i) :
    ((op.run m).2.layout.data f)[i]? = (m.layout.data f)[i]? := by
  by_cases hop : ∃ s a data sp, op = .write s a data sp
  · obtain ⟨s, a, data, sp, rfl⟩ := hop
    refine Machine.performWrite_ends
      (Q := fun _ t => (t.layout.data f)[i]? = (m.layout.data f)[i]?) hs hu data fun e t h => ?_
    obtain ⟨cs, hw, hgrow⟩ := h.grows hu
    exact hg.data hcl hs hw.course hgrow.lasts
  · obtain ⟨cs, hc, hcs⟩ := unstored_run hs hu ha fun s a data sp h => hop ⟨s, a, data, sp, h⟩
    exact (hcl.sealed hg).data hs hc hcs

end Op

theorem Runs.shows_unwritten {m t : Machine} {trail : List (Op × Report)}
    {P : Option UInt8 → Prop} {f : FileId} {i : Nat} (h : Runs m trail t) (hs : m.layout.Sound)
    (hu : m.layout.Unpinned) (hop : ∀ x ∈ trail, ∀ s a data sp, x.1 ≠ .write s a data sp)
    (hp : Layout.Shows P f i m.layout) : Layout.Shows P f i t.layout := by
  induction h with
  | nil => exact hp
  | cons ha _ ih =>
      obtain ⟨cs, hw, -⟩ := Op.goes_run hs hu ha
      obtain ⟨ds, hd, hds⟩ := Op.unstored_run hs hu ha (hop _ List.mem_cons_self)
      exact ih (hs.of_course hw.course) hw.unpinned (fun x hx => hop x (List.mem_cons_of_mem _ hx))
        (hp.of_course hs hd hds)

theorem Runs.clean {m t : Machine} {trail : List (Op × Report)} (h : Runs m trail t)
    (hs : m.layout.Sound) (hu : m.layout.Unpinned) (hc : m.layout.Clean) : t.layout.Clean := by
  induction h with
  | nil => exact hc
  | cons ha _ ih =>
      obtain ⟨cs, hw, -⟩ := Op.goes_run hs hu ha
      exact ih (hs.of_course hw.course) hw.unpinned (hc.of_course hs hw.course)

theorem Reachable.clean {m : Machine} (h : Reachable m) : m.layout.Clean := by
  obtain ⟨m₀, trail, h₀, hr⟩ := h
  refine hr.clean h₀.sound.1 h₀.sound.2 fun id hc => ?_
  obtain ⟨config, n, disk, files, -, -, rfl⟩ := h₀
  rw [Layout.changed, Layout.hardDirty, Machine.page_boot, Machine.entry_boot] at hc
  cases hc

end Pager
