import Pager.Proofs.Releasing
import Pager.Proofs.Pending

namespace Pager

open Step

def Frame.disown (P : PageId → Bool) (fr : Frame) : Frame :=
  if fr.owner.any P then { fr with owner := none } else fr

theorem Frame.disown_disown (P Q : PageId → Bool) (fr : Frame) :
    (fr.disown P).disown Q = fr.disown (fun id => P id || Q id) := by
  obtain ⟨p, owner, pinned⟩ := fr
  cases owner with
  | none => rfl
  | some id => cases hP : P id <;> cases hQ : Q id <;> simp [disown, hP, hQ]

theorem Frame.disown_eq_self {P : PageId → Bool} {fr : Frame}
    (h : ∀ id, fr.owner = some id → P id = false) : fr.disown P = fr := by
  rw [disown, if_neg]
  rw [Option.any_eq_true]
  intro hany
  obtain ⟨id, hid, hp⟩ := hany
  simp [h id hid] at hp

namespace Layout

variable {l l₁ l' : Layout} {id : PageId} {P Q : PageId → Bool}

theorem or_of_implies (h : ∀ id, P id = true → Q id = true) : (fun id => P id || Q id) = Q := by
  funext id
  cases hp : P id with
  | false => rfl
  | true => exact (h id hp).symm

theorem owner?_of_get? {f : FrameId} {fr : Frame} (h : l.frames.get? f = some fr) :
    l.owner? f = fr.owner := by
  rw [owner?, FrameTable.owner?, h, Option.bind_some]

theorem get?_disown_self (hs : l.Sound) (h : ∀ id, P id = true → l.home? id = none)
    (f : FrameId) : (l.frames.get? f).map (Frame.disown P) = l.frames.get? f := by
  cases hfr : l.frames.get? f with
  | none => rfl
  | some fr =>
      refine congrArg some (Frame.disown_eq_self fun id hid => ?_)
      by_contra hp
      have hhome := (hs.owners f id).mp ((owner?_of_get? hfr).trans hid)
      rw [h id (Bool.eq_true_of_not_eq_false hp)] at hhome
      cases hhome

/-- The pages for which `P` holds are given up, with their mappings and with the
frames and the slots that held them. -/
structure Clears (l : Layout) (P : PageId → Bool) (l' : Layout) : Prop where
  page : ∀ id, l'.page id = if P id then none else l.page id
  entry : ∀ id, l'.entry id = if P id then none else l.entry id
  frames : ∀ f, l'.frames.get? f = (l.frames.get? f).map (Frame.disown P)
  hand : l'.frames.hand = l.frames.hand
  slots : ∀ k : Slot, l'.bitmap.test k.index = true ↔
    l.bitmap.test k.index = true ∧ ∀ id, P id = true → l.slot? id ≠ some k

namespace Clears

theorem of_vacant (hs : l.Sound) (h : ∀ id, P id = true → l.page id = none) : l.Clears P l where
  page id := by
    split
    next hp => exact h id hp
    next => rfl
  entry id := by
    split
    next hp => exact hs.entry_eq_none (by rw [home?, h id hp, Option.bind_none])
    next => rfl
  frames f := (get?_disown_self hs (fun id hp => by rw [home?, h id hp, Option.bind_none]) f).symm
  hand := rfl
  slots k := by
    refine ⟨fun ht => ⟨ht, fun id hp hk => ?_⟩, And.left⟩
    rw [slot?, h id hp, Option.bind_none] at hk
    cases hk

theorem trans (h : l.Clears P l₁) (h' : l₁.Clears Q l') :
    l.Clears (fun id => P id || Q id) l' where
  page id := by
    rw [h'.page, h.page]
    cases P id <;> cases Q id <;> rfl
  entry id := by
    rw [h'.entry, h.entry]
    cases P id <;> cases Q id <;> rfl
  frames f := by
    rw [h'.frames, h.frames, Option.map_map]
    exact congrArg (Option.map · (l.frames.get? f)) (funext (Frame.disown_disown P Q))
  hand := h'.hand.trans h.hand
  slots k := by
    have hslot (id : PageId) : l₁.slot? id = if P id then none else l.slot? id := by
      rw [slot?, h.page]
      split <;> rfl
    rw [h'.slots, h.slots]
    constructor
    · rintro ⟨⟨ht, hP⟩, hQ⟩
      refine ⟨ht, fun id hid => ?_⟩
      by_cases hp : P id = true
      · exact hP id hp
      · have hq := hQ id (by simpa [hp] using hid)
        rwa [hslot, if_neg hp] at hq
    · rintro ⟨ht, hPQ⟩
      refine ⟨⟨ht, fun id hp => hPQ id (by rw [hp, Bool.true_or])⟩, fun id hq => ?_⟩
      rw [hslot]
      split
      next => exact (Option.some_ne_none k).symm
      next => exact hPQ id (by rw [hq, Bool.or_true])

theorem widen (h : l.Clears P l') (hs : l'.Sound) (hPQ : ∀ id, P id = true → Q id = true)
    (hv : ∀ id, Q id = true → l'.page id = none) : l.Clears Q l' := by
  have h' := h.trans (of_vacant hs hv)
  rwa [or_of_implies hPQ] at h'

theorem of_step (hs : l.Sound) (hm : l.ChangeStep (.destroy id) l') :
    l.Clears (fun o => o == id) l' := by
  have hforget (o : PageId) : (l.forget id).page o = if o == id then none else l.page o := by
    change Function.update l.page id none o = _
    rw [Function.update_apply]
    simp only [beq_iff_eq]
  have hunmap (o : PageId) : (l.forget id).entry o = if o == id then none else l.entry o := by
    change Function.update l.entry id none o = _
    rw [Function.update_apply]
    simp only [beq_iff_eq]
  have hself (hid : l.home? id = none) (f : FrameId) :
      l.frames.get? f = (l.frames.get? f).map (Frame.disown (fun o => o == id)) :=
    (get?_disown_self hs (fun o ho => by rwa [beq_iff_eq.mp ho]) f).symm
  have hunbind {f : FrameId} (hid : l.home? id = some f) (g : FrameId) :
      (l.frames.unbind f).get? g = (l.frames.get? g).map (Frame.disown (fun o => o == id)) := by
    rw [FrameTable.unbind, FrameTable.get?_modify]
    cases hfr : l.frames.get? g with
    | none => split <;> rfl
    | some fr =>
        have howner := owner?_of_get? hfr
        split
        next hfg =>
          subst hfg
          rw [(hs.owners f id).mpr hid] at howner
          simp [Frame.disown, ← howner]
        next hfg =>
          refine congrArg some (Frame.disown_eq_self fun o ho => ?_).symm
          by_contra hne
          obtain rfl : o = id := by simpa using hne
          have hhome := (hs.owners g o).mp (howner.trans ho)
          exact hfg (Option.some.inj (hid.symm.trans hhome))
  have hkeep (hid : l.slot? id = none) (k : Slot) : l.bitmap.test k.index = true ↔
      l.bitmap.test k.index = true ∧ ∀ o, (o == id) = true → l.slot? o ≠ some k := by
    refine ⟨fun ht => ⟨ht, fun o ho => ?_⟩, And.left⟩
    rw [beq_iff_eq.mp ho, hid]
    exact (Option.some_ne_none k).symm
  cases hm with
  | destroyIdle _ page hpage hf hk =>
      exact ⟨hforget, hunmap, hself (by rw [home?, hpage, Option.bind_some, hf]), rfl,
        hkeep (by rw [slot?, hpage, Option.bind_some, hk])⟩
  | destroySlot _ page j hpage hn hc =>
      have hslot : l.slot? id = some j := by rw [slot?, hpage, Option.bind_some, Page.slot?, hc]
      refine ⟨hforget, hunmap, hself (by rw [home?, hpage, Option.bind_some, hn]),
        rfl, fun k => ?_⟩
      have hjk : j.index = k.index ↔ l.slot? id = some k := by
        rw [hslot, Option.some_inj, Slot.mk.injEq]
      rw [Swap.Bitmap.test_unmark hs.bitmap.wellFormed, Bool.and_eq_true, Bool.not_eq_true',
        decide_eq_false_iff_not, hjk, and_comm]
      simp only [beq_iff_eq, forall_eq, ne_eq]
  | destroyFrame _ page f hpage hf hc =>
      exact ⟨hforget, hunmap, hunbind (by rw [home?, hpage, Option.bind_some, hf]),
        rfl, hkeep (by rw [slot?, hpage, Option.bind_some, Page.slot?, hc])⟩
  | destroyFile _ page f p g span dirty hin hc | destroyLost _ page f p g span dirty k hin hc =>
      exact ⟨hforget, hunmap, hunbind hin.home?_eq, rfl,
        hkeep (by rw [slot?, hin.1, Option.bind_some, Page.slot?, hc])⟩

end Clears

/-- No two of these pages have changes for the same byte of a file. -/
def PendingApart (l : Layout) (P : PageId → Bool) : Prop :=
  ∀ id id' g g' b b' f i, P id = true → P id' = true → l.pending? id = some (g, b) →
    l.pending? id' = some (g', b') → g.Covers f i → g'.Covers f i → id = id'

/-- The pages for which `P` holds leave their changes to their files. Where two
of them have changes for one byte, or a loss is noted, it is open which bytes of
theirs a file has in the end. -/
structure Drains (l : Layout) (P : PageId → Bool) (l' : Layout) : Prop where
  pending : ∀ id, l'.pending? id = if P id then none else l.pending? id
  size : ∀ f, (l'.data f).size = (l.data f).size
  untouched : ∀ f i, (∀ id g b, P id = true → l.pending? id = some (g, b) → ¬g.Covers f i) →
    (l'.data f)[i]? = (l.data f)[i]?
  lost : l.lost ≤ l'.lost
  written : l'.lost = l.lost → l.PendingApart P → ∀ id g b, P id = true →
    l.pending? id = some (g, b) → ∀ i, g.Covers g.file i →
      (l'.data g.file)[i]? = b[i - g.offset]?

namespace Drains

theorem of_clean (h : ∀ id, P id = true → l.pending? id = none) : l.Drains P l where
  pending id := by
    split
    next hp => exact h id hp
    next => rfl
  size _ := rfl
  untouched _ _ _ := rfl
  lost := le_rfl
  written _ _ id g b hp hpend := by
    rw [h id hp] at hpend
    cases hpend

theorem trans (h : l.Drains P l₁) (h' : l₁.Drains Q l') :
    l.Drains (fun id => P id || Q id) l' where
  pending id := by
    rw [h'.pending, h.pending]
    cases P id <;> cases Q id <;> rfl
  size f := (h'.size f).trans (h.size f)
  untouched f i hc := by
    rw [h'.untouched f i, h.untouched f i]
    · exact fun id g b hp => hc id g b (by rw [hp, Bool.true_or])
    · intro id g b hq hpend
      rw [h.pending] at hpend
      split at hpend
      next => cases hpend
      next => exact hc id g b (by rw [hq, Bool.or_true]) hpend
  lost := h.lost.trans h'.lost
  written hlost ha id g b hpq hpend i hi := by
    have hl := h.lost
    have hl' := h'.lost
    -- a page of the second kind that had changes when the first ones were gone had them before
    have hback {o : PageId} {g : Segment} {b : PageBytes} (ho : l₁.pending? o = some (g, b)) :
        P o = false ∧ l.pending? o = some (g, b) := by
      rw [h.pending] at ho
      split at ho
      next => cases ho
      next hp => exact ⟨Bool.eq_false_of_not_eq_true hp, ho⟩
    have hleft {o : PageId} (ho : P o = true) : (P o || Q o) = true := by rw [ho, Bool.true_or]
    have hright {o : PageId} (ho : Q o = true) : (P o || Q o) = true := by rw [ho, Bool.or_true]
    cases hp : P id with
    | true =>
        have hapart : l.PendingApart P := fun o o' g g' b b' f i ho ho' =>
          ha o o' g g' b b' f i (hleft ho) (hleft ho')
        rw [h'.untouched, h.written (by omega) hapart id g b hp hpend i hi]
        intro o g' b' hq ho hi'
        obtain ⟨hpo, ho⟩ := hback ho
        obtain rfl := ha id o g g' b b' _ i hpq (hright hq) hpend ho hi hi'
        rw [hp] at hpo
        cases hpo
    | false =>
        have hq : Q id = true := by rwa [hp, Bool.false_or] at hpq
        have hapart : l₁.PendingApart Q := fun o o' g g' b b' f i ho ho' hb hb' =>
          ha o o' g g' b b' f i (hright ho) (hright ho') (hback hb).2 (hback hb').2
        have hpend' : l₁.pending? id = some (g, b) := by
          rw [h.pending, hp]
          exact hpend
        exact h'.written (by omega) hapart id g b hq hpend' i hi

theorem widen (h : l.Drains P l') (hPQ : ∀ id, P id = true → Q id = true)
    (hv : ∀ id, Q id = true → l'.pending? id = none) : l.Drains Q l' := by
  have h' := h.trans (of_clean hv)
  rwa [or_of_implies hPQ] at h'

theorem of_step (hs : l.Sound) (hf : l.Fitting) (hm : l.ChangeStep (.destroy id) l') :
    l.Drains (fun o => o == id) l' := by
  have hpending {l' : Layout} (hpage : l'.page = (l.forget id).page)
      (hentry : l'.entry = (l.forget id).entry) (hphys : l'.phys? = l.phys?)
      (hb : l'.bytes = l.bytes) (o : PageId) :
      l'.pending? o = if o == id then none else l.pending? o := by
    have hh := hold?_forget hs hpage hentry hphys
    by_cases ho : o = id
    · rw [if_pos (beq_iff_eq.mpr ho), ho]
      exact pending?_idle (by rw [hh, Function.update_self])
    · rw [if_neg (by simpa using ho)]
      exact pending?_congr (by rw [hh, Function.update_of_ne ho]) fun _ _ _ => by rw [hb]
  have hclean (hn : l.pending? id = none) (hl : ∀ o, l'.pending? o = if o == id then none else
      l.pending? o) (hd : l'.data = l.data) (hlost : l'.lost = l.lost) :
      l.Drains (fun o => o == id) l' := by
    refine ⟨hl, fun f => by rw [hd], fun f i _ => by rw [hd], hlost.ge, fun _ _ o g b ho hp => ?_⟩
    rw [beq_iff_eq.mp ho, hn] at hp
    cases hp
  have hspill {g : Segment} {p : PhysPage} {k : Nat} (hp : l.pending? id = some (g, l.bytes p))
      (hl : ∀ o, l'.pending? o = if o == id then none else l.pending? o)
      (hd : l'.data = l.spill g p k) (hle : l.lost ≤ l'.lost)
      (hk : l'.lost = l.lost → k = g.length) : l.Drains (fun o => o == id) l' := by
    refine ⟨hl, fun f => by rw [hd, size_spill], fun f i hc => ?_, hle, fun hlost _ o g' b ho => ?_⟩
    · rw [hd, spill_other]
      exact fun hi => hc id g _ (beq_self_eq_true id) hp hi.1
    · intro hpend i hi
      rw [beq_iff_eq.mp ho, hp] at hpend
      obtain ⟨rfl, rfl⟩ := Prod.mk.inj (Option.some.inj hpend)
      obtain ⟨x, hx, -, hxg, -⟩ := exists_of_pending? hp
      have hfit := hf id x hx
      rw [hxg, Segment.Fits] at hfit
      have hi' := hi.2
      rw [hd, spill, Function.update_self, Segment.getElem?_spill, hk hlost, if_pos (by omega)]
  cases hm with
  | destroyIdle _ page hpage hfr hk =>
      exact hclean (pending?_idle (hold?_idle (by rw [home?, hpage, Option.bind_some, hfr])))
        (hpending rfl rfl rfl rfl) rfl rfl
  | destroySlot _ page k hpage hn hc =>
      exact hclean (pending?_idle (hold?_anon page hpage (by rw [Page.kind, hc])))
        (hpending rfl rfl rfl rfl) rfl rfl
  | destroyFrame _ page f hpage hf hc =>
      exact hclean (pending?_idle (hold?_anon page hpage (by rw [Page.kind, hc])))
        (hpending rfl rfl FrameTable.phys?_unbind rfl) rfl rfl
  | destroyFile _ page f p g span dirty hin hc =>
      have hhold := hold?_file hin hc
      by_cases hd : (dirty || l.hardDirty id) = true
      · exact hspill (pending?_of_hold? hhold hd) (hpending rfl rfl FrameTable.phys?_unbind rfl)
          (if_pos hd) le_rfl fun _ => rfl
      · refine hclean (pending?_of_clean fun x hx => ?_)
          (hpending rfl rfl FrameTable.phys?_unbind rfl) (if_neg hd) rfl
        rw [← Option.some.inj (hhold.symm.trans hx), Bool.eq_false_of_not_eq_true hd]
  | destroyLost _ page f p g span dirty k hin hc hd =>
      exact hspill (pending?_of_hold? (hold?_file hin hc) hd)
        (hpending rfl rfl FrameTable.phys?_unbind rfl) rfl (Nat.le_succ _)
        fun h => absurd h (Nat.succ_ne_self _)

end Drains

end Layout

end Pager
