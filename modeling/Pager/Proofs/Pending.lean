import Pager.Proofs.Ledger

namespace Pager

namespace Layout

variable {l l' : Layout} {id o : PageId} {x : Hold} {g : Segment} {p : PhysPage} {b : PageBytes}
  {c : Change} {cs : List Change} {k : Nat}

/-- The segment and the bytes of a page that its file may lack. -/
def pending? (l : Layout) (id : PageId) : Option (Segment × PageBytes) :=
  (l.hold? id).bind (fun x => if x.dirty then some (x.segment, l.bytes x.phys) else none)

theorem hold?_of_step (hm : l.ChangeStep c l') (hx : l'.hold? o = some x) :
    ∃ y, l.hold? o = some y ∧ y.segment = x.segment ∧ y.phys = x.phys := by
  obtain ⟨page, f, dirty, ⟨hpage, hf, hp⟩, hc, -⟩ := exists_of_hold? hx
  have hback (hpage : l.page o = some page) (hp : l.phys? f = some x.phys) :
      ∃ y, l.hold? o = some y ∧ y.segment = x.segment ∧ y.phys = x.phys :=
    ⟨_, hold?_file ⟨hpage, hf, hp⟩ hc, rfl, rfl⟩
  have hother {q : Option Page} {id : PageId} (hq : q ≠ some page)
      (h : Function.update l.page id q o = some page) : l.page o = some page := by
    rw [Function.update_apply] at h
    split at h
    next => exact absurd h hq
    next => exact h
  have hunbind {k : FrameId} (hp : (l.frames.unbind k).phys? f = some x.phys) :
      l.phys? f = some x.phys := (congrFun FrameTable.phys?_unbind f).symm.trans hp
  cases hm with
  | register id q hn hl =>
      refine hback (hother ?_ hpage) hp
      rintro ⟨⟩
      rw [Page.loaded, hc] at hl
      cases hl
  | load id q loader span j r b hq hcont hspare =>
      refine hback (hother ?_ hpage) ((congrFun FrameTable.phys?_bind f).symm.trans hp)
      rintro ⟨⟩
      cases hc
  | refresh | store | fill => exact hback hpage hp
  | destroyIdle | destroySlot => exact hback (hother (by simp) hpage) hp
  | destroyFrame | destroyFile | destroyLost =>
      exact hback (hother (by simp) hpage) (hunbind hp)

theorem size_of_shifts (hm : l.Shifts l') (f : FileId) : (l'.data f).size = (l.data f).size := by
  cases hm with
  | same hh hd hb => rw [hd]
  | leave id x hx hh hb hd =>
      rw [hd]
      split
      next => exact size_spill f
      next => rfl
  | spoil id x k hx hdirty hh hb hd => rw [hd, size_spill]
  | enter id g p hn hg hfit hh hd => rw [hd]

theorem size_of_step (hm : l.ChangeStep c l') (f : FileId) :
    (l'.data f).size = (l.data f).size := by
  cases hm with
  | destroyFile =>
      dsimp only
      split
      next => exact size_spill f
      next => rfl
  | destroyLost => exact size_spill f
  | _ => rfl

/-- Each file reaches to the end of its pages that are in frames. -/
def Fitting (l : Layout) : Prop :=
  ∀ id x, l.hold? id = some x → x.segment.Fits (l.data x.segment.file).size

theorem Fitting.of_hidden (h : l.Fitting) (hs : l.Sound) (hm : l.Hidden l') : l'.Fitting := by
  have hshift := shifts_of_hidden hs hm
  intro o y hy
  rw [size_of_shifts hshift]
  cases hshift with
  | same hh | spoil id x k hx hdirty hh =>
      rw [hh] at hy
      exact h o y hy
  | leave id x hx hh =>
      rw [hh, Function.update_apply] at hy
      split at hy
      next => cases hy
      next => exact h o y hy
  | enter id g p hn hg hfit hh =>
      rw [hh, Function.update_apply] at hy
      split at hy
      next =>
        obtain rfl := Option.some.inj hy
        exact hfit
      next => exact h o y hy

theorem Fitting.of_step (h : l.Fitting) (hm : l.ChangeStep c l') : l'.Fitting := by
  intro o y hy
  obtain ⟨x, hx, hg, -⟩ := hold?_of_step hm hy
  rw [size_of_step hm, ← hg]
  exact h o x hx

theorem Fitting.of_course (h : l.Fitting) (hs : l.Sound) (hm : l.Course cs l') : l'.Fitting := by
  refine (hm.preserves (P := fun k => k.Sound ∧ k.Fitting) ⟨hs, h⟩ ?_ ?_).2
  · exact fun hab h => ⟨h.1.of_hidden hab, h.2.of_hidden h.1 hab⟩
  · exact fun _ hab h => ⟨h.1.of_step hab, h.2.of_step hab⟩

theorem exists_of_pending? (h : l.pending? id = some (g, b)) :
    ∃ x, l.hold? id = some x ∧ x.dirty = true ∧ x.segment = g ∧ l.bytes x.phys = b := by
  obtain ⟨x, hx, hp⟩ := Option.bind_eq_some_iff.mp h
  split at hp
  next hd =>
    obtain ⟨rfl, rfl⟩ := Prod.mk.inj (Option.some.inj hp)
    exact ⟨x, hx, hd, rfl, rfl⟩
  next => cases hp

theorem pending?_of_hold? (hx : l.hold? id = some x) (hd : x.dirty = true) :
    l.pending? id = some (x.segment, l.bytes x.phys) := by
  rw [pending?, hx, Option.bind_some, if_pos hd]

theorem pending?_of_clean (h : ∀ x, l.hold? id = some x → x.dirty = false) :
    l.pending? id = none := by
  rw [pending?, Option.bind_eq_none_iff]
  intro x hx
  rw [h x hx]
  rfl

theorem pending?_idle (h : l.hold? id = none) : l.pending? id = none :=
  pending?_of_clean fun x hx => by rw [h] at hx; cases hx

theorem pending?_congr (hh : l'.hold? o = l.hold? o)
    (hb : ∀ x, l.hold? o = some x → x.dirty = true → l'.bytes x.phys = l.bytes x.phys) :
    l'.pending? o = l.pending? o := by
  rw [pending?, hh, pending?]
  cases hx : l.hold? o with
  | none => rfl
  | some x =>
      simp only [Option.bind_some]
      by_cases hd : x.dirty = true
      · rw [hb x hx hd]
      · rw [if_neg hd, if_neg hd]

/-- Files change only by what they get from pages with changes, and no page
loses any unless all of them are written. -/
inductive Flushes (l l' : Layout) : Prop
  | same (hp : l'.pending? = l.pending?) (hd : l'.data = l.data)
  | spill (id : PageId) (g : Segment) (b : PageBytes) (k : Nat)
      (hx : l.pending? id = some (g, b)) (ho : ∀ o ≠ id, l'.pending? o = l.pending? o)
      (hn : l'.pending? id = l.pending? id ∨ k = g.length ∧ l'.pending? id = none)
      (hd : l'.data = Function.update l.data g.file (g.spill b k (l.data g.file)))

theorem Flushes.pending?_of_some (h : l.Flushes l') {x : Segment × PageBytes}
    (hx : l'.pending? o = some x) : l.pending? o = some x := by
  cases h with
  | same hp => exact hp ▸ hx
  | spill id g b k _ ho hn =>
      by_cases hid : o = id
      · subst hid
        rcases hn with hn | ⟨-, hn⟩
        · exact hn ▸ hx
        · rw [hn] at hx
          cases hx
      · exact ho o hid ▸ hx

theorem flushes_of_shifts (hm : l.Shifts l') : l.Flushes l' := by
  cases hm with
  | same hh hd hb =>
      exact .same (funext fun o => pending?_congr (congrFun hh o) fun x hx _ => hb o x hx) hd
  | leave id x hx hh hb hd =>
      have hself : l'.pending? id = none := pending?_idle (by rw [hh, Function.update_self])
      have hother (o : PageId) (ho : o ≠ id) : l'.pending? o = l.pending? o :=
        pending?_congr (by rw [hh, Function.update_of_ne ho]) fun _ _ _ => by rw [hb]
      cases hdirty : x.dirty with
      | true =>
          rw [hdirty, if_pos rfl] at hd
          exact .spill id _ _ _ (pending?_of_hold? hx hdirty) hother (.inr ⟨rfl, hself⟩) hd
      | false =>
          rw [hdirty] at hd
          refine .same (funext fun o => ?_) hd
          by_cases ho : o = id
          · rw [ho, hself, pending?_of_clean fun y hy => by
              rw [← Option.some.inj (hx.symm.trans hy), hdirty]]
          · exact hother o ho
  | spoil id x k hx hdirty hh hb hd =>
      have hsame (o : PageId) : l'.pending? o = l.pending? o :=
        pending?_congr (congrFun hh o) fun _ _ _ => by rw [hb]
      exact .spill id _ _ k (pending?_of_hold? hx hdirty) (fun o _ => hsame o) (.inl (hsame id)) hd
  | enter id g p hn hg hfit hh hd hp hb =>
      refine .same (funext fun o => ?_) hd
      by_cases ho : o = id
      · rw [ho, pending?_idle hn, pending?_of_clean]
        intro x hx
        rw [hh, Function.update_self] at hx
        rw [← Option.some.inj hx]
      · exact pending?_congr (by rw [hh, Function.update_of_ne ho]) fun x hx _ => hb o x hx

theorem flushes_of_step (hs : l.Sound) (hm : l.ChangeStep c l') (hc : c.Makes ∨ c.Quiet)
    (hn : l.pending? c.target = none) : l.Flushes l' := by
  have hquiet (hq : c.Quiet) (hl : l'.lost = l.lost) : l.Flushes l' :=
    flushes_of_shifts (shifts_of_step hs hm hq hl)
  cases hm with
  | refresh | store => simp [Change.Makes, Change.Quiet] at hc
  | fill id page f p b hin =>
      refine .same (funext fun o => pending?_congr rfl fun x hx hd => ?_) rfl
      by_cases ho : o = id
      · subst ho
        exact absurd ((pending?_of_hold? hx hd).symm.trans hn) (by simp)
      · obtain ⟨j, hj, hp⟩ := home?_of_hold? hx
        exact bytes_other hs hin.2.2 hp (home?_ne_of_ne hs hin.home?_eq ho hj)
  | destroyLost id page f p g span dirty k hin hcont hd =>
      have hp := pending?_of_hold? (hold?_file hin hcont) hd
      exact absurd (hp.symm.trans hn) (by simp)
  | _ => exact hquiet trivial rfl

def Owes (l : Layout) (f : FileId) (i : Nat) (v : Option UInt8) : Prop :=
  ∃ id g b, l.pending? id = some (g, b) ∧ g.Covers f i ∧ v = b[i - g.offset]?

/-- Every change that was pending is pending still, or the file has what was
pending for it. No page has come to have others. -/
structure Saves (l₀ l : Layout) : Prop where
  fits : l.Fitting
  pending : ∀ id x, l.pending? id = some x → l₀.pending? id = some x
  saved : ∀ id g b, l₀.pending? id = some (g, b) → l.pending? id = some (g, b) ∨
    ∀ i, g.Covers g.file i → l₀.Owes g.file i (l.data g.file)[i]?

namespace Saves

variable {l₀ : Layout}

theorem refl (h : l.Fitting) : Saves l l := ⟨h, fun _ _ hx => hx, fun _ _ _ hx => .inl hx⟩

theorem pending_none (h : Saves l₀ l) (hpage : l₀.page id = none) : l.pending? id = none := by
  rw [Option.eq_none_iff_forall_ne_some]
  intro x hx
  have hidle : l₀.pending? id = none :=
    pending?_idle (hold?_idle (by rw [home?, hpage, Option.bind_none]))
  exact absurd ((h.pending id x hx).symm.trans hidle) (by simp)

theorem of_flushes (h : Saves l₀ l) (hm : l.Flushes l') (hf : l'.Fitting) : Saves l₀ l' := by
  cases hm with
  | same hp hd =>
      refine ⟨hf, ?_, ?_⟩
      · rw [hp]
        exact h.pending
      · rw [hp, hd]
        exact h.saved
  | spill id g b k hx ho hn hd =>
      have hbyte (i : Nat) : (l'.data g.file)[i]? = (g.spill b k (l.data g.file))[i]? := by
        rw [hd, Function.update_self]
      refine ⟨hf, fun o x hox => ?_, fun o g' b' ho' => ?_⟩
      · by_cases hid : o = id
        · subst hid
          rcases hn with hn | ⟨-, hn⟩
          · exact h.pending o x (hn.symm.trans hox)
          · exact absurd (hn.symm.trans hox) (by simp)
        · exact h.pending o x ((ho o hid).symm.trans hox)
      have howes (f : FileId) (i : Nat) (hi : l₀.Owes f i (l.data f)[i]?) :
          l₀.Owes f i (l'.data f)[i]? := by
        by_cases hfile : f = g.file
        · subst hfile
          rw [hbyte, Segment.getElem?_spill]
          split
          next hc => exact ⟨id, g, b, h.pending _ _ hx, ⟨rfl, hc.1, by omega⟩, rfl⟩
          next => exact hi
        · rwa [hd, Function.update_of_ne hfile]
      rcases h.saved o g' b' ho' with hp | hdue
      · by_cases hid : o = id
        · subst hid
          rcases hn with hn | ⟨rfl, -⟩
          · exact .inl (hn.trans hp)
          · right
            obtain ⟨rfl, rfl⟩ := Prod.mk.inj (Option.some.inj (hx.symm.trans hp))
            intro i hc
            obtain ⟨-, hlo, hhi⟩ := hc
            obtain ⟨x, hhold, -, rfl, -⟩ := exists_of_pending? hx
            have hfit := h.fits o x hhold
            unfold Segment.Fits at hfit
            refine ⟨o, _, _, ho', ⟨rfl, hlo, hhi⟩, ?_⟩
            rw [hbyte, Segment.getElem?_spill, if_pos ⟨hlo, by omega, by omega⟩]
        · exact .inl ((ho o hid).trans hp)
      · exact .inr fun i hc => howes _ i (hdue i hc)

theorem of_hidden (h : Saves l₀ l) (hs : l.Sound) (hm : l.Hidden l') : Saves l₀ l' :=
  h.of_flushes (flushes_of_shifts (shifts_of_hidden hs hm)) (h.fits.of_hidden hs hm)

theorem of_course (h : Saves l₀ l) (hs : l.Sound) (hm : l.Course cs l')
    (hcs : ∀ c ∈ cs, (c.Makes ∨ c.Quiet) ∧ l₀.page c.target = none) : Saves l₀ l' := by
  refine (hm.preserves (P := fun k => k.Sound ∧ Saves l₀ k) ⟨hs, h⟩ ?_ ?_).2
  · exact fun hab h => ⟨h.1.of_hidden hab, h.2.of_hidden h.1 hab⟩
  · intro a b c hc hab h
    exact ⟨h.1.of_step hab, h.2.of_flushes (flushes_of_step h.1 hab (hcs c hc).1
      (h.2.pending_none (hcs c hc).2)) (h.2.fits.of_step hab)⟩

end Saves

end Layout

end Pager
