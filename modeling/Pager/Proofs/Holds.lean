import Pager.Proofs.Contents

namespace Pager

def Segment.Covers (g : Segment) (f : FileId) (i : Nat) : Prop :=
  g.file = f ∧ g.offset ≤ i ∧ i < g.offset + g.length

/-- A page of a file in a frame. If it is dirty the file may lack some of its
bytes. -/
structure Hold where
  segment : Segment
  phys : PhysPage
  dirty : Bool

def Page.hold? (phys? : FrameId → Option PhysPage) (hard : Bool) (page : Page) : Option Hold :=
  match page.frame?, page.content with
  | some f, .file g _ dirty => (phys? f).map (fun p => ⟨g, p, dirty || hard⟩)
  | _, _ => none

namespace Change

/-- No bytes of a page change, and no page is mapped anew. -/
def Quiet : Change → Prop
  | register _ _ | load _ _ | destroy _ => True
  | refresh _ | store _ _ _ | fill _ _ => False

def Bare : Change → Prop
  | register _ page => page.segment? = none
  | _ => True

def Lasting : Change → Prop
  | destroy _ => False
  | _ => True

end Change

namespace Layout

variable {l l' : Layout} {id o : PageId} {page : Page} {p : PhysPage} {f : FrameId} {c : Change}
  {g : Segment} {x : Hold}

def segment? (l : Layout) (id : PageId) : Option Segment := (l.page id).bind Page.segment?

/-- No two pages have a byte of a file in common. -/
def Apart (l : Layout) : Prop :=
  ∀ id id' g g' f i, l.segment? id = some g → l.segment? id' = some g' → g.Covers f i →
    g'.Covers f i → id = id'

theorem Apart.mono (h : l.Apart) (hsub : ∀ id g, l'.segment? id = some g → l.segment? id = some g) :
    l'.Apart :=
  fun id id' g g' f i hg hg' => h id id' g g' f i (hsub id g hg) (hsub id' g' hg')

def hold? (l : Layout) (id : PageId) : Option Hold :=
  (l.page id).bind (fun page => page.hold? l.phys? (l.hardDirty id))

theorem hold?_eq (page : Page) (hpage : l.page id = some page) :
    l.hold? id = page.hold? l.phys? (l.hardDirty id) := by
  rw [hold?, hpage, Option.bind_some]

theorem exists_of_hold? (h : l.hold? id = some x) :
    ∃ page f dirty, l.InFrame id page f x.phys ∧
      page.content = .file x.segment page.span dirty ∧
      x.dirty = (dirty || l.hardDirty id) := by
  obtain ⟨page, hpage, hx⟩ := Option.bind_eq_some_iff.mp h
  rw [Page.hold?] at hx
  split at hx
  next f g span dirty hf hc =>
    obtain ⟨p, hp, rfl⟩ := Option.map_eq_some_iff.mp hx
    exact ⟨page, f, dirty, ⟨hpage, hf, hp⟩, by rw [Page.span, hc], rfl⟩
  next => cases hx

theorem hold?_file {span : Nat} {dirty : Bool} (hf : l.InFrame id page f p)
    (hc : page.content = .file g span dirty) :
    l.hold? id = some ⟨g, p, dirty || l.hardDirty id⟩ := by
  rw [hold?_eq page hf.1, Page.hold?, hf.2.1, hc]
  simp only [hf.2.2, Option.map_some]

theorem hold?_of_store {span : Nat} {dirty : Bool} (hf : l.InFrame id page f p)
    (hc : page.content = .file g span dirty) (he : (l.entry id).isSome = true)
    (bytes : PhysPage → PageBytes) :
    hold? { l with
      entry := Function.update l.entry id ((l.entry id).map (fun e => e.set .dirty true))
      bytes := bytes } id = some ⟨g, p, true⟩ := by
  obtain ⟨e, he⟩ := Option.isSome_iff_exists.mp he
  refine (hold?_file (f := f) (p := p) ?_ hc).trans ?_
  · exact hf
  · simp [hardDirty, he, Entry.has_set]

theorem exists_hold? (hs : l.Sound) (h : l.InFrame id page f p) (hg : page.segment? = some g) :
    ∃ x, l.hold? id = some x ∧ x.segment = g ∧ x.phys = p := by
  cases hc : page.content with
  | unloaded => exact absurd hc ((hs.coherent h.1).ne_unloaded h.2.1)
  | anon => simp [Page.segment?, hc] at hg
  | file g' span dirty =>
      obtain rfl : g' = g := by simpa [Page.segment?, hc] using hg
      exact ⟨_, hold?_file h hc, rfl, rfl⟩

theorem segment?_of_hold? (h : l.hold? id = some x) : l.segment? id = some x.segment := by
  obtain ⟨page, f, dirty, hin, hc, -⟩ := exists_of_hold? h
  rw [segment?, hin.1, Option.bind_some, Page.segment?, hc]

theorem home?_of_hold? (h : l.hold? id = some x) :
    ∃ f, l.home? id = some f ∧ l.phys? f = some x.phys := by
  obtain ⟨page, f, dirty, hin, -⟩ := exists_of_hold? h
  exact ⟨f, hin.home?_eq, hin.2.2⟩

theorem hold?_anon (page : Page) (hpage : l.page id = some page) (hk : page.kind = .anon) :
    l.hold? id = none := by
  rw [hold?_eq page hpage, Page.hold?]
  split
  next hc => simp [Page.kind, hc] at hk
  next => rfl

theorem hold?_idle (hid : l.home? id = none) : l.hold? id = none := by
  cases hx : l.hold? id with
  | none => rfl
  | some x =>
      obtain ⟨f, hf, -⟩ := home?_of_hold? hx
      rw [hid] at hf
      cases hf

theorem hold?_congr (h : l.Sound) (hpage : l'.page o = l.page o)
    (hphys : ∀ f p, l.home? o = some f → l.phys? f = some p → l'.phys? f = some p)
    (hd : l'.hardDirty o = l.hardDirty o) : l'.hold? o = l.hold? o := by
  rw [hold?, hold?, hpage, hd]
  cases hp : l.page o with
  | none => rfl
  | some page =>
      rw [Option.bind_some, Option.bind_some, Page.hold?, Page.hold?]
      cases hf : page.frame? with
      | none => rfl
      | some f =>
          have hhome : l.home? o = some f := by rw [home?, hp, Option.bind_some, hf]
          obtain ⟨q, hq⟩ := h.exists_phys? hhome
          cases page.content with
          | unloaded | anon => rfl
          | file => simp only [hq, hphys f q hhome hq]

theorem hardDirty_congr (h : l'.entry o = l.entry o) : l'.hardDirty o = l.hardDirty o := by
  rw [hardDirty, h]
  rfl

theorem hardDirty_set {k : Flag} (hk : k ≠ .dirty) (on : Bool)
    (h : l'.entry o = (l.entry o).map (fun e => e.set k on)) : l'.hardDirty o = l.hardDirty o := by
  rw [hardDirty, h, hardDirty]
  cases l.entry o with
  | none => rfl
  | some e => simp only [Option.map_some, Option.any_some, Entry.has_set, if_neg hk]

theorem hold?_settle (h : l.Sound) {c : Content} (b : PageBytes) (ho : o ≠ id) :
    (l.settle id page f p c b).hold? o = l.hold? o :=
  hold?_congr h (Function.update_of_ne ho ..)
    (fun g _ _ hq => (congrFun FrameTable.phys?_bind g).trans hq)
    (hardDirty_congr (Function.update_of_ne ho ..))

theorem hold?_leave (h : l.Sound) {c : Content} (ho : o ≠ id) :
    (l.leave id page f c).hold? o = l.hold? o :=
  hold?_congr h (Function.update_of_ne ho ..)
    (fun g _ _ hq => (congrFun FrameTable.phys?_unbind g).trans hq)
    (hardDirty_congr (Function.update_of_ne ho ..))

theorem bytes_of_hold? (h : l.Sound) (hf : l.Spare f p) {b : PageBytes}
    (hx : l.hold? o = some x) : Function.update l.bytes p b x.phys = l.bytes x.phys := by
  obtain ⟨k, hk, hp⟩ := home?_of_hold? hx
  exact bytes_other h hf.1 hp (home?_ne_spare h hf hk)

inductive Shifts (l l' : Layout) : Prop
  | same (hh : l'.hold? = l.hold?) (hd : l'.data = l.data)
      (hb : ∀ id x, l.hold? id = some x → l'.bytes x.phys = l.bytes x.phys)
  | leave (id : PageId) (x : Hold) (hx : l.hold? id = some x)
      (hh : l'.hold? = Function.update l.hold? id none) (hb : l'.bytes = l.bytes)
      (hd : l'.data = if x.dirty then l.spill x.segment x.phys x.segment.length else l.data)
  | spoil (id : PageId) (x : Hold) (k : Nat) (hx : l.hold? id = some x) (hdirty : x.dirty = true)
      (hh : l'.hold? = l.hold?) (hb : l'.bytes = l.bytes)
      (hd : l'.data = l.spill x.segment x.phys k)
  | enter (id : PageId) (g : Segment) (p : PhysPage) (hn : l.hold? id = none)
      (hg : l.segment? id = some g) (hfit : g.Fits (l.data g.file).size)
      (hh : l'.hold? = Function.update l.hold? id (some ⟨g, p, false⟩)) (hd : l'.data = l.data)
      (hp : l'.bytes p = g.image (l.data g.file))
      (hb : ∀ id x, l.hold? id = some x → l'.bytes x.phys = l.bytes x.phys)

theorem Shifts.of_idle (hn : l.hold? id = none) (hn' : l'.hold? id = none)
    (ho : ∀ o ≠ id, l'.hold? o = l.hold? o) (hd : l'.data = l.data)
    (hb : ∀ id x, l.hold? id = some x → l'.bytes x.phys = l.bytes x.phys) : l.Shifts l' := by
  refine .same ?_ hd hb
  funext o
  by_cases h : o = id
  · rw [h, hn, hn']
  · exact ho o h

theorem hold?_ne_update (o : Option Hold) (hid : l'.hold? id = o)
    (ho : ∀ k ≠ id, l'.hold? k = l.hold? k) : l'.hold? = Function.update l.hold? id o := by
  funext k
  by_cases h : k = id
  · rw [h, hid, Function.update_self]
  · rw [Function.update_of_ne h, ho k h]

theorem shifts_of_hidden (h : l.Sound) (hm : l.Hidden l') : l.Shifts l' := by
  cases hm with
  | sweep entry hand hentry hhand =>
      refine .same ?_ rfl fun _ _ _ => rfl
      funext o
      refine hold?_congr h rfl (fun _ _ _ hq => hq) ?_
      rcases hentry o with he | he
      · exact hardDirty_congr he
      · exact hardDirty_set (by decide) _ he
  | mark id =>
      refine .same ?_ rfl fun _ _ _ => rfl
      funext o
      refine hold?_congr h rfl (fun _ _ _ hq => hq) ?_
      by_cases ho : o = id
      · subst ho
        exact hardDirty_set (by decide) _ (Function.update_self ..)
      · exact hardDirty_congr (Function.update_of_ne ho ..)
  | grow p ps hfree =>
      refine .same ?_ rfl fun _ _ _ => rfl
      funext o
      exact hold?_congr h rfl (fun g q _ hq => phys?_grow hq) rfl
  | pin f =>
      refine .same ?_ rfl fun _ _ _ => rfl
      funext o
      exact hold?_congr h rfl (fun g _ _ hq => (congrFun FrameTable.phys?_pin g).trans hq) rfl
  | unpin f =>
      refine .same ?_ rfl fun _ _ _ => rfl
      funext o
      exact hold?_congr h rfl (fun g _ _ hq => (congrFun FrameTable.phys?_unpin g).trans hq) rfl
  | rerun => exact .same rfl rfl fun _ _ _ => rfl
  | scribble f p b hf => exact .same rfl rfl fun _ _ hx => bytes_of_hold? h hf hx
  | saveAnon id page f p s hpage hf hc hp hs ht =>
      have hpage' := Function.update_self id
        (some { page with frame? := none, content := .anon (some s) }) l.page
      exact .of_idle (hold?_anon page hpage (by rw [Page.kind, hc])) (hold?_anon _ hpage' rfl)
        (fun o ho => hold?_leave h ho) rfl fun _ _ _ => rfl
  | keepAnon id page f stored hpage hf hc hs =>
      have hk : page.kind = .anon := by rw [Page.kind, hc]
      refine .of_idle (hold?_anon page hpage hk) (hold?_anon page hpage hk) (fun o ho => ?_) rfl
        fun _ _ _ => rfl
      exact hold?_congr h rfl (fun _ _ _ hq => hq) (hardDirty_congr (Function.update_of_ne ho ..))
  | saveFile id page f p g span dirty hpage hf hc hp =>
      exact .leave id _ (hold?_file ⟨hpage, hf, hp⟩ hc)
        (hold?_ne_update none (hold?_idle (by simp [home?, leave]))
          fun o ho => hold?_leave h ho) rfl rfl
  | keepFile id page f p g span dirty k hpage hf hc hp hd =>
      have hx := hold?_file ⟨hpage, hf, hp⟩ hc
      refine .spoil id _ k hx hd ?_ rfl rfl
      funext o
      by_cases ho : o = id
      · subst ho
        rw [hx, hd]
        exact hold?_file (l := { l with
          page := Function.update l.page o (some { page with content := .file g span true })
          entry := Function.update l.entry o none
          data := l.spill g p k }) ⟨Function.update_self .., hf, hp⟩ rfl
      · exact hold?_congr h (Function.update_of_ne ho ..) (fun _ _ _ hq => hq)
          (hardDirty_congr (Function.update_of_ne ho ..))
  | swapIn id page f p s hpage hn hc hf =>
      have hpage' := Function.update_self id (some
        { page with frame? := some f, content := .anon none }) l.page
      exact .of_idle (hold?_anon page hpage (by rw [Page.kind, hc])) (hold?_anon _ hpage' rfl)
        (fun o ho => hold?_settle h (l.stored s) ho) rfl fun _ _ hx => bytes_of_hold? h hf hx
  | readIn id page f p g hpage hn hg hfit hf =>
      refine .enter id g p (hold?_idle (by rw [home?, hpage, Option.bind_some, hn]))
        (by rw [segment?, hpage, Option.bind_some, hg]) hfit
        (hold?_ne_update _ ?_ fun o ho => hold?_settle h (g.image (l.data g.file)) ho) rfl
        (Function.update_self ..)
        fun _ _ hx => bytes_of_hold? h hf hx
      have hin : InFrame (l.settle id page f p (.file g page.span false) (g.image (l.data g.file)))
          id { page with frame? := some f, content := .file g page.span false } f p :=
        ⟨Function.update_self .., rfl, (congrFun FrameTable.phys?_bind f).trans hf.1⟩
      rw [hold?_file hin rfl]
      simp [settle, hardDirty, Entry.has_fresh]
  | remap id page f p hpage hf hp he =>
      refine .same ?_ rfl fun _ _ _ => rfl
      funext o
      refine hold?_congr h rfl (fun _ _ _ hq => hq) ?_
      by_cases ho : o = id
      · subst ho
        simp [hardDirty, he, Entry.has_fresh]
      · exact hardDirty_congr (Function.update_of_ne ho ..)

theorem hold?_forget (h : l.Sound) {l' : Layout} (hpage : l'.page = (l.forget id).page)
    (hentry : l'.entry = (l.forget id).entry) (hphys : l'.phys? = l.phys?) :
    l'.hold? = Function.update l.hold? id none := by
  refine hold?_ne_update none (hold?_idle ?_) fun o ho => ?_
  · rw [home?, hpage]
    simp [forget]
  · refine hold?_congr h ?_ (fun g q _ hq => (congrFun hphys g).trans hq) (hardDirty_congr ?_)
    · rw [hpage]
      exact Function.update_of_ne ho ..
    · rw [hentry]
      exact Function.update_of_ne ho ..

theorem shifts_of_step (h : l.Sound) (hm : l.ChangeStep c l') (hq : c.Quiet)
    (hl : l'.lost = l.lost) :
    l.Shifts l' := by
  have hidle {o : PageId} (ho : l.hold? o = none) (hh : l'.hold? = Function.update l.hold? o none)
      (hd : l'.data = l.data) (hb : l'.bytes = l.bytes) : l.Shifts l' := by
    refine .same ?_ hd fun _ _ _ => by rw [hb]
    rw [hh, ← ho, Function.update_eq_self]
  cases hm with
  | register id page hpage hnew hh =>
      refine .of_idle (hold?_idle (by rw [home?, hpage, Option.bind_none])) (hold?_idle ?_)
        (fun o ho => ?_) rfl fun _ _ _ => rfl
      · simp [home?, hh.coherent.frame?_of_unloaded hnew]
      · exact hold?_congr h (Function.update_of_ne ho ..) (fun _ _ _ hq => hq) rfl
  | load id page loader span f p b hpage hn hc hf hb =>
      have hpage' := Function.update_self id (some
        { page with frame? := some f, content := .anon none }) l.page
      exact .of_idle (hold?_anon page hpage (by rw [Page.kind, hc])) (hold?_anon _ hpage' rfl)
        (fun o ho => hold?_settle h b ho) rfl fun _ _ hx => bytes_of_hold? h hf hx
  | refresh | store | fill => cases hq
  | destroyIdle id page hpage hf hs =>
      exact hidle (hold?_idle (by rw [home?, hpage, Option.bind_some, hf]))
        (hold?_forget h rfl rfl rfl) rfl rfl
  | destroySlot id page s hpage hn hc =>
      exact hidle (hold?_anon page hpage (by rw [Page.kind, hc]))
        (hold?_forget h rfl rfl rfl) rfl rfl
  | destroyFrame id page f hpage hf hc =>
      exact hidle (hold?_anon page hpage (by rw [Page.kind, hc]))
        (hold?_forget h rfl rfl FrameTable.phys?_unbind) rfl rfl
  | destroyFile id page f p g span dirty hf hc =>
      exact .leave id _ (hold?_file hf hc)
        (hold?_forget h rfl rfl FrameTable.phys?_unbind) rfl rfl
  | destroyLost => exact absurd hl (Nat.succ_ne_self _)

theorem segment?_update (l : Layout) (id : PageId) (o : Option Page) :
    (fun k => (Function.update l.page id o k).bind Page.segment?) =
      Function.update l.segment? id (o.bind Page.segment?) := by
  funext k
  rw [Function.update_apply, Function.update_apply]
  split <;> rfl

theorem segment?_rewrite (q : Page) (hpage : l.page id = some page)
    (hq : q.segment? = page.segment?) :
    (fun k => (Function.update l.page id (some q) k).bind Page.segment?) = l.segment? := by
  have hid : l.segment? id = page.segment? := by rw [segment?, hpage, Option.bind_some]
  rw [segment?_update, Option.bind_some, hq, ← hid, Function.update_eq_self]

theorem segment?_of_hidden (hm : l.Hidden l') : l'.segment? = l.segment? := by
  cases hm with
  | sweep | mark | grow | pin | unpin | rerun | scribble | keepAnon | remap => rfl
  | saveAnon id page f p s hpage hf hc =>
      exact segment?_rewrite _ hpage (by rw [Page.segment?, Page.segment?, hc])
  | saveFile id page f p g span dirty hpage hf hc =>
      exact segment?_rewrite _ hpage (by rw [Page.segment?, Page.segment?, hc])
  | keepFile id page f p g span dirty k hpage hf hc =>
      exact segment?_rewrite _ hpage (by rw [Page.segment?, Page.segment?, hc])
  | swapIn id page f p s hpage hn hc =>
      exact segment?_rewrite _ hpage (by rw [Page.segment?, Page.segment?, hc])
  | readIn id page f p g hpage hn hg => exact segment?_rewrite _ hpage hg.symm

theorem segment?_of_register (hm : l.ChangeStep (.register id page) l') :
    l'.segment? = Function.update l.segment? id page.segment? := by
  cases hm with
  | register => exact segment?_update l id (some page)

theorem segment?_of_bare (hm : l.ChangeStep c l') (hc : c.Bare) (hg : l'.segment? id = some g) :
    l.segment? id = some g := by
  have hupdate {o : PageId} {q : Option Page} (hq : q.bind Page.segment? = none)
      (h : (Function.update l.page o q id).bind Page.segment? = some g) :
      l.segment? id = some g := by
    rw [congrFun (segment?_update l o q) id, hq, Function.update_apply] at h
    split at h
    next => cases h
    next => exact h
  cases hm with
  | register o page => exact hupdate (q := some page) hc hg
  | load o page loader span f p b hpage hn hcont => exact hupdate rfl hg
  | refresh | store | fill => exact hg
  | destroyIdle | destroySlot | destroyFrame | destroyFile | destroyLost => exact hupdate rfl hg

theorem segment?_of_lasting (hm : l.ChangeStep c l') (hc : c.Lasting)
    (hg : l.segment? id = some g) :
    l'.segment? id = some g := by
  have hupdate {o : PageId} {q : Option Page} (ho : l.segment? o = none) :
      (Function.update l.page o q id).bind Page.segment? = some g := by
    rw [congrFun (segment?_update l o q) id, Function.update_of_ne]
    · exact hg
    · rintro rfl
      rw [ho] at hg
      cases hg
  cases hm with
  | register o page hpage => exact hupdate (by rw [segment?, hpage, Option.bind_none])
  | load o page loader span f p b hpage hn hcont =>
      exact hupdate (by rw [segment?, hpage, Option.bind_some, Page.segment?, hcont])
  | refresh | store | fill => exact hg
  | destroyIdle | destroySlot | destroyFrame | destroyFile | destroyLost => exact hc.elim

theorem lost_of_hidden (hm : l.Hidden l') : l'.lost = l.lost := by
  cases hm <;> rfl

theorem lost_le_of_step (hm : l.ChangeStep c l') : l.lost ≤ l'.lost := by
  cases hm with
  | destroyLost => exact Nat.le_succ _
  | _ => exact le_rfl

theorem lost_of_lasting (hm : l.ChangeStep c l') (hc : c.Lasting) : l'.lost = l.lost := by
  cases hm with
  | destroyIdle | destroySlot | destroyFrame | destroyFile | destroyLost => exact hc.elim
  | _ => rfl

theorem segment?_of_course {cs : List Change} (hm : l.Course cs l')
    (hcs : ∀ c ∈ cs, c.Bare ∧ c.Lasting) : l'.segment? = l.segment? := by
  apply hm.preserves (P := fun k => k.segment? = l.segment?) rfl
  · exact fun h hk => (segment?_of_hidden h).trans hk
  · intro a b c hc h hk
    rw [← hk]
    funext id
    exact Option.ext fun g =>
      ⟨segment?_of_bare h (hcs c hc).1, segment?_of_lasting h (hcs c hc).2⟩

theorem lost_of_course {cs : List Change} (hm : l.Course cs l') (hcs : ∀ c ∈ cs, c.Lasting) :
    l'.lost = l.lost := by
  apply hm.preserves (P := fun k => k.lost = l.lost) rfl
  · exact fun h hk => (lost_of_hidden h).trans hk
  · exact fun hc h hk => (lost_of_lasting h (hcs _ hc)).trans hk

end Layout

end Pager
