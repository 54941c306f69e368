import Pager.Proofs.Clean
import Pager.Proofs.Rollback

namespace Pager

namespace Layout

variable {l l₀ l' : Layout} {id o : PageId} {page : Page} {c : Change} {cs : List Change}
  {g : Segment} {i j k : Nat} {bs : List UInt8} {s : SpaceId} {a sp : VirtAddr}
  {data : List UInt8} {ps : List (Piece × World)} {e : Option Failure}

theorem exists_pending_of_store (hs : l.Sound) (hm : l.ChangeStep (.store id i bs) l')
    (hg : l.segment? id = some g) :
    ∃ b, l'.pending? id = some (g, Bytes.splice b i bs) := by
  cases hm with
  | store _ page f p _ _ hin hw he =>
      rw [segment?, hin.1, Option.bind_some] at hg
      obtain ⟨x, hx, rfl, rfl⟩ := exists_hold? hs hin hg
      obtain ⟨q, k, dirty, hin', hc, -⟩ := exists_of_hold? hx
      refine ⟨l.bytes x.phys, (pending?_of_hold? (hold?_of_store hin' hc he _) rfl).trans ?_⟩
      simp only [Function.update_self]

theorem flushes_of_store (hs : l.Sound) (hm : l.ChangeStep (.store id i bs) l')
    (hg : l.segment? id = none) : l.Flushes l' := by
  cases hm with
  | store _ page f p _ _ hin hw he =>
      refine .same (funext fun o => ?_) rfl
      by_cases ho : o = id
      · subst ho
        have hnone {l₁ : Layout} (hseg : l₁.segment? o = none) : l₁.pending? o = none := by
          refine pending?_of_clean fun x hx => ?_
          rw [segment?_of_hold? hx] at hseg
          cases hseg
        rw [hnone hg]
        exact hnone hg
      · refine pending?_congr (hold?_congr hs rfl (fun _ _ _ hq => hq)
          (hardDirty_congr (Function.update_of_ne ho ..))) fun x hx _ => ?_
        obtain ⟨j, hj, hphys⟩ := home?_of_hold? hx
        exact bytes_other hs hin.2.2 hphys (home?_ne_of_ne hs hin.home?_eq ho hj)

namespace Saves

theorem of_rearranged (h : Saves l₀ l) (hs : l.Sound) (hm : l.Rearranged l') : Saves l₀ l' :=
  h.of_course hs (.nil hm) (by simp)

theorem of_quiet (h : Saves l₀ l) (hs : l.Sound) (hm : l.Course cs l')
    (hcs : ∀ c ∈ cs, c.Quiet ∧ c.Lasting) : Saves l₀ l' := by
  refine (hm.preserves (P := fun k => k.Sound ∧ Saves l₀ k) ⟨hs, h⟩ ?_ ?_).2
  · exact fun hab h => ⟨h.1.of_hidden hab, h.2.of_hidden h.1 hab⟩
  · intro a b c hc hab h
    obtain ⟨hquiet, hlast⟩ := hcs c hc
    exact ⟨h.1.of_step hab, h.2.of_flushes (flushes_of_shifts (shifts_of_step h.1 hab hquiet
      (lost_of_lasting hab hlast))) (h.2.fits.of_step hab)⟩

theorem of_piece (h : Saves l₀ l) (hs : l.Sound) (hm : l.Course (cs ++ [.store id i bs]) l')
    (hcs : ∀ c ∈ cs, c.Quiet ∧ c.Bare ∧ c.Lasting) (hg : l.segment? id = none) :
    Saves l₀ l' := by
  obtain ⟨l₁, l₂, hc, hstore, hr⟩ := hm.of_snoc
  have hs₁ := hs.of_course hc
  have h₁ := h.of_quiet hs hc fun c hmem => ⟨(hcs c hmem).1, (hcs c hmem).2.2⟩
  have hg₁ : l₁.segment? id = none := by
    rw [segment?_of_course hc fun c hmem => (hcs c hmem).2, hg]
  have h₂ := h₁.of_flushes (flushes_of_store hs₁ hstore hg₁) (h₁.fits.of_step hstore)
  exact h₂.of_rearranged (hs₁.of_step hstore) hr

theorem of_writes (hw : Writes s a sp k data ps e l l') (h : Saves l₀ l) (hs : l.Sound)
    (hps : ∀ x ∈ ps, l.segment? x.1.id = none) : Saves l₀ l' := by
  induction hw with
  | done | overflow => exact h
  | stops _ _ _ hb hw =>
      exact h.of_quiet hs hw.course fun c hc =>
          ⟨(balks_changes hb c hc).1, (balks_changes hb c hc).2.2⟩
  | piece _ _ _ ho hw _ ih =>
      have h₁ := h.of_piece hs hw.course (opens_changes ho) (hps _ List.mem_cons_self)
      have hseg := segment?_of_course hw.course (store_changes (opens_changes ho))
      refine ih h₁ (hs.of_course hw.course) fun x hx => ?_
      rw [hseg]
      exact hps x (List.mem_cons_of_mem _ hx)

end Saves

theorem Writes.flushed {x : Piece} {w : World} (h : Writes s a sp k data ((x, w) :: ps) e l l')
    (hs : l.Sound) (hf : l.Fitting) (hc : l.Clean) (hg : l.segment? x.id = some g)
    (hps : ∀ y ∈ ps, l.segment? y.1.id = none)
    (hsole : ∀ o page g', o ≠ x.id → l.page o = some page → page.segment? = some g' →
      g'.Covers g.file i → page.writable = false)
    (hout : l'.pending? x.id = none) (hi : g.Covers g.file i) :
    ∃ b : PageBytes, (l'.data g.file)[i]? = (Bytes.splice b x.start x.bytes)[i - g.offset]? := by
  cases h with
  | @piece _ n _ _ _ _ l₃ _ cur cs hd ha hn ho hw ht =>
      obtain ⟨l₁, l₂, hcourse, hstore, hr⟩ := hw.course.of_snoc
      have hlast : ∀ c ∈ cs ++ [.store ⟨s, cur.page⟩ cur.offset (data.take n)],
          c.Bare ∧ c.Lasting := store_changes (opens_changes ho)
      have hc₂ := hcourse.snoc hstore
      have hs₂ := hs.of_course hc₂
      have hseg₁ := segment?_of_course hcourse fun c hmem => (opens_changes ho c hmem).2
      obtain ⟨b, hb⟩ :=
        exists_pending_of_store (hs.of_course hcourse) hstore (by rw [hseg₁]; exact hg)
      have hsaves : Saves l₂ l' := by
        have h₃ := (Saves.refl (hf.of_course hs hc₂)).of_rearranged hs₂ hr
        refine h₃.of_writes ht (hs.of_course hw.course) fun y hy => ?_
        rw [segment?_of_course hw.course hlast]
        exact hps y hy
      obtain ⟨o, g', b', hp, hcov, hbyte⟩ := (hsaves.saved _ _ _ hb).resolve_left
        (by rw [hout]; simp) i hi
      obtain rfl : o = ⟨s, cur.page⟩ := by
        by_contra hne
        have hg' : l.segment? o = some g' := by
          obtain ⟨y, hy, -, rfl, -⟩ := exists_of_pending? hp
          rw [← segment?_of_course hc₂ hlast]
          exact segment?_of_hold? hy
        obtain ⟨page, hpage, hpg⟩ := Option.bind_eq_some_iff.mp hg'
        obtain ⟨q, hq, hcont⟩ := continues_of_course hs hc₂ (fun c hmem => (hlast c hmem).2) hpage
        have hro := hcont.writable.trans (hsole o page g' hne hpage hpg hcov)
        rw [(hc.of_course hs hc₂).pending?_eq_none hq hro] at hp
        cases hp
      obtain ⟨rfl, rfl⟩ := Prod.mk.inj (Option.some.inj (hp.symm.trans hb))
      exact ⟨b, hbyte⟩

end Layout

/-- A write that begins in a page of a file and goes on in private memory has
come to the file when the page has left its frame meanwhile, unless another page
that may be written has the bytes. -/
theorem Reachable.write_flushed {m : Machine} (h : Reachable m) {s : SpaceId} {a sp : VirtAddr}
    {data : List UInt8} {x : Piece} {xs : List Piece} {g : Segment} {i : Nat}
    (hst : ((Op.write s a data sp).run m).1.stored = x :: xs) (hg : m.segment? x.id = some g)
    (hxs : ∀ y ∈ xs, m.segment? y.id = none)
    (hsole : ∀ o page g', o ≠ x.id → m.page? o = some page → page.segment? = some g' →
      g'.Covers g.file i → page.writable = false)
    (hout : (((Op.write s a data sp).run m).2.page? x.id).any Page.resident = false)
    (hi : g.Covers g.file i) (hlo : x.start ≤ i - g.offset)
    (hhi : i - g.offset < x.start + x.bytes.length) :
    ((Op.write s a data sp).run m).2.fileByte? g.file i = x.bytes[i - g.offset - x.start]? := by
  obtain ⟨hs, hu⟩ := h.sound
  obtain ⟨ps, e, hw, hps⟩ : ∃ ps e, Layout.Writes s a sp 0 data ps e m.layout
      ((Op.write s a data sp).run m).2.layout ∧
        ((Op.write s a data sp).run m).1.stored = ps.map Prod.fst :=
    Machine.performWrite_ends (Q := fun r t => ∃ ps e, Layout.Writes s a sp 0 data ps e m.layout
      t.layout ∧ r.stored = ps.map Prod.fst) hs hu data fun e t h => ⟨_, e, h, rfl⟩
  rw [hst] at hps
  cases ps with
  | nil => cases hps
  | cons p ps =>
      obtain ⟨y, w⟩ := p
      obtain ⟨rfl, rfl⟩ := List.cons.inj hps
      have hidle : ((Op.write s a data sp).run m).2.layout.pending? x.id = none := by
        refine Layout.pending?_idle (Layout.hold?_idle ?_)
        rw [Layout.home?, Option.bind_eq_none_iff]
        intro q hq
        rw [show ((Op.write s a data sp).run m).2.page? x.id = some q from hq, Option.any_some,
          Page.resident, Option.isSome_eq_false_iff, Option.isNone_iff_eq_none] at hout
        exact hout
      obtain ⟨b, hb⟩ := hw.flushed hs h.fitting h.clean hg
        (fun z hz => hxs _ (List.mem_map_of_mem hz)) hsole hidle hi
      have hlen := g.length_le
      obtain ⟨-, hge, hlt⟩ := hi
      refine hb.trans ?_
      rw [Bytes.getElem?_splice, if_pos ⟨hlo, hhi, by omega⟩]

end Pager
