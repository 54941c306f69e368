import Pager.Proofs.Clock

namespace Pager

open Step

/-- The page is the same one, which may have left its frame or come into one.
What was not loaded is not loaded still. -/
inductive Content.Drifts : Content → Content → Prop
  | unloaded (kind : Kind) (loader : Option Loader) (span : Nat) :
      Drifts (.unloaded kind loader span) (.unloaded kind loader span)
  | anon (slot slot' : Option Slot) : Drifts (.anon slot) (.anon slot')
  | file (g : Segment) (span : Nat) (dirty dirty' : Bool) :
      Drifts (.file g span dirty) (.file g span dirty')

structure Page.Drifts (p q : Page) : Prop where
  writable : q.writable = p.writable
  content : p.content.Drifts q.content

theorem Content.Drifts.refl (c : Content) : c.Drifts c := by
  cases c <;> constructor

theorem Content.Drifts.trans {c d e : Content} (h : c.Drifts d) (h' : d.Drifts e) :
    c.Drifts e := by
  cases h <;> cases h' <;> constructor

theorem Page.Drifts.refl (p : Page) : p.Drifts p := ⟨rfl, .refl _⟩

theorem Page.Drifts.segment? {p q : Page} (h : p.Drifts q) : q.segment? = p.segment? := by
  obtain ⟨w, f, c⟩ := p
  obtain ⟨w', f', c'⟩ := q
  obtain ⟨-, hc⟩ := h
  cases hc <;> rfl

theorem Page.Drifts.span {p q : Page} (h : p.Drifts q) : q.span = p.span := by
  obtain ⟨w, f, c⟩ := p
  obtain ⟨w', f', c'⟩ := q
  obtain ⟨-, hc⟩ := h
  cases hc <;> rfl

theorem Page.Drifts.trans {p q r : Page} (h : p.Drifts q) (h' : q.Drifts r) : p.Drifts r :=
  ⟨h'.writable.trans h.writable, h.content.trans h'.content⟩

def Entry.Cools (x y : Option Entry) : Prop :=
  y = x ∨ y = x.map (fun e => e.set .accessed false)

theorem Entry.Cools.refl (x : Option Entry) : Cools x x := .inl rfl

theorem Entry.Cools.trans {x y z : Option Entry} (h : Cools x y) (h' : Cools y z) :
    Cools x z := by
  rcases h' with rfl | rfl
  · exact h
  · rcases h with rfl | rfl
    · exact .inr rfl
    · right
      rw [Option.map_map]
      exact congrArg (fun g => x.map g) (funext fun e => e.set_set .accessed false)

namespace Layout

variable {l l' l'' : Layout} {id : PageId} {page : Page} {p : PhysPage} {f : FrameId} {e : Failure}

/-- The failures that are to be expected: errors, and that there is no memory
to be had at all. -/
def Expects (l : Layout) : Failure → Prop
  | .errno _ => True
  | .panic q => q = .outOfFrames ∧ l.capacity = 0

theorem Expects.congr (h : l'.Expects e) (hc : l'.capacity = l.capacity) : l.Expects e := by
  cases e with
  | errno k => trivial
  | panic q => exact ⟨h.1, hc ▸ h.2⟩

/-- Each page is still there, wherever its bytes are now. -/
def Drifts (l l' : Layout) : Prop :=
  ∀ id page, l.page id = some page → ∃ q, l'.page id = some q ∧ page.Drifts q

theorem Drifts.of_eq (h : l'.page = l.page) : l.Drifts l' :=
  fun id page hpage => ⟨page, (congrFun h id).trans hpage, .refl page⟩

theorem Drifts.trans (h : l.Drifts l') (h' : l'.Drifts l'') : l.Drifts l'' := by
  intro id page hpage
  obtain ⟨q, hq, hd⟩ := h id page hpage
  obtain ⟨r, hr, hd'⟩ := h' id q hq
  exact ⟨r, hr, hd.trans hd'⟩

structure KeepsIdle (l l' : Layout) : Prop where
  idle : ∀ id, l.home? id = none → l'.page id = l.page id
  drifts : l.Drifts l'

theorem KeepsIdle.of_eq (h : l'.page = l.page) : l.KeepsIdle l' :=
  ⟨fun id _ => congrFun h id, .of_eq h⟩

theorem KeepsIdle.refl (l : Layout) : l.KeepsIdle l := .of_eq rfl

theorem KeepsIdle.trans (h : l.KeepsIdle l') (h' : l'.KeepsIdle l'') : l.KeepsIdle l'' := by
  refine ⟨fun id hid => ?_, h.drifts.trans h'.drifts⟩
  have : l'.home? id = none := by rw [home?, h.idle id hid]; exact hid
  rw [h'.idle id this, h.idle id hid]

theorem KeepsIdle.of_update {q : Page} (hid : l.home? id = some f)
    (hpage : l.page id = some page) (h : l'.page = Function.update l.page id (some q))
    (hd : page.Drifts q) : l.KeepsIdle l' := by
  refine ⟨fun k hk => ?_, fun k r hr => ?_⟩
  · rw [h, Function.update_of_ne]
    rintro rfl
    rw [hid] at hk
    cases hk
  · by_cases hk : k = id
    · subst hk
      obtain rfl : page = r := Option.some.inj (hpage.symm.trans hr)
      exact ⟨q, by rw [h, Function.update_self], hd⟩
    · exact ⟨r, by rw [h, Function.update_of_ne hk, hr], .refl r⟩

structure Acquired (l : Layout) (f : FrameId) (p : PhysPage) (l' : Layout) : Prop where
  reach : l.Rearranged l'
  idle : l.KeepsIdle l'
  spare : l'.Spare f p
  pinned : l'.PinnedOnly f

structure Aborted (l l' : Layout) : Prop where
  reach : l.Rearranged l'
  idle : l.KeepsIdle l'
  unpinned : l'.Unpinned

/-- The hand was turned, and pages that it came by may have lost their accessed
bits. -/
def Sweeps (l l' : Layout) : Prop :=
  ∃ entry hand, (∀ id, Entry.Cools (l.entry id) (entry id)) ∧ hand < max 1 l.frames.size ∧
    l' = { l with entry := entry, frames := { l.frames with hand := hand } }

/-- A page leaves its frame, for a slot that was free or for its file. -/
inductive Leaves (l : Layout) (id : PageId) (f : FrameId) (p : PhysPage) : Layout → Prop
  | anon (page : Page) (s : Slot) (hpage : l.page id = some page) (hf : page.frame? = some f)
      (hc : page.content = .anon none) (hp : l.phys? f = some p)
      (hs : s.index < l.bitmap.slots) (ht : l.bitmap.test s.index = false) :
      Leaves l id f p { l.leave id page f (.anon (some s)) with
        bitmap := l.bitmap.mark s.index, stored := Function.update l.stored s (l.bytes p) }
  | file (page : Page) (g : Segment) (span : Nat) (dirty : Bool) (hpage : l.page id = some page)
      (hf : page.frame? = some f) (hc : page.content = .file g span dirty)
      (hp : l.phys? f = some p) :
      Leaves l id f p { l.leave id page f (.file g span false) with
        data := if dirty || l.hardDirty id then l.spill g p g.length else l.data }

/-- A page could not leave its frame. There was no slot to be had, or a device
did not take all of it when its mapping was gone already. -/
inductive Lingers (l : Layout) (id : PageId) (f : FrameId) (p : PhysPage) : Layout → Prop
  | full (page : Page) (hpage : l.page id = some page) (hf : page.frame? = some f)
      (hc : page.content = .anon none) (hp : l.phys? f = some p) : Lingers l id f p l
  | anon (page : Page) (stored : Slot → PageBytes) (hpage : l.page id = some page)
      (hf : page.frame? = some f) (hc : page.content = .anon none) (hp : l.phys? f = some p)
      (hs : ∀ s : Slot, l.bitmap.test s.index = true → stored s = l.stored s) :
      Lingers l id f p { l with entry := Function.update l.entry id none, stored := stored }
  | file (page : Page) (g : Segment) (span : Nat) (dirty : Bool) (k : Nat)
      (hpage : l.page id = some page) (hf : page.frame? = some f)
      (hc : page.content = .file g span dirty) (hp : l.phys? f = some p)
      (hd : (dirty || l.hardDirty id) = true) :
      Lingers l id f p { l with
        page := Function.update l.page id (some { page with content := .file g span true })
        entry := Function.update l.entry id none
        data := l.spill g p k }

/-- An empty frame is had, and is left pinned: a new one, one that was empty, or
one that a page, which is named, had to leave. -/
inductive Obtains (l : Layout) (f : FrameId) (p : PhysPage) : Option PageId → Layout → Prop
  | grow (ps : List PhysPage) (hfree : l.free = p :: ps) (hf : f = ⟨l.frames.size⟩) :
      Obtains l f p none
        { l with free := ps, frames := (l.frames.push { page := p, pinned := true }).2 }
  | reuse (l₁ : Layout) (hs : l.Sweeps l₁) (hf : l₁.Spare f p) :
      Obtains l f p none { l₁ with frames := l₁.frames.pin f }
  | evict (l₁ l₂ : Layout) (id : PageId) (hs : l.Sweeps l₁) (hl : l₁.Leaves id f p l₂) :
      Obtains l f p (some id) { l₂ with frames := l₂.frames.pin f }

/-- No frame is had: there is none, or a page, which is named, stays in it. -/
inductive Lacks (l : Layout) : Option PageId → Layout → Prop
  | empty (hc : l.capacity = 0) : Lacks l none l
  | stuck (l₁ l₂ : Layout) (id : PageId) (f : FrameId) (p : PhysPage) (hs : l.Sweeps l₁)
      (hl : l₁.Lingers id f p l₂) : Lacks l (some id) l₂

theorem Acquired.scribble (h : l.Acquired f p l') (b : PageBytes) :
    l.Acquired f p { l' with bytes := Function.update l'.bytes p b } :=
  ⟨h.reach.tail (.scribble f p b h.spare), h.idle.trans (.of_eq rfl), h.spare, h.pinned⟩

theorem pinnedOnly_pin (hu : l.Unpinned) : PinnedOnly { l with frames := l.frames.pin f } f := by
  intro g h
  obtain ⟨fr, hg, hfr⟩ := h
  by_contra hne
  rw [FrameTable.pin, FrameTable.get?_modify, if_neg (Ne.symm hne)] at hg
  exact hu g ⟨fr, hg, hfr⟩

theorem unpinned_unpin (h : l.PinnedOnly f) : Unpinned { l with frames := l.frames.unpin f } := by
  intro g h
  obtain ⟨fr, hg, hfr⟩ := h
  rw [FrameTable.unpin, FrameTable.get?_modify] at hg
  split at hg
  next =>
    obtain ⟨fr', -, rfl⟩ := Option.map_eq_some_iff.mp hg
    cases hfr
  next hne => exact hne (h g ⟨fr, hg, hfr⟩).symm

theorem unpinned_unbind (hu : l.Unpinned) :
    Unpinned { l with frames := l.frames.unbind f } := by
  intro g h
  obtain ⟨fr, hg, hfr⟩ := h
  rw [FrameTable.unbind, FrameTable.get?_modify] at hg
  split at hg
  next =>
    obtain ⟨fr', hf', rfl⟩ := Option.map_eq_some_iff.mp hg
    exact hu g ⟨fr', hf', hfr⟩
  next => exact hu g ⟨fr, hg, hfr⟩

theorem Sweeps.hidden (h : l.Sweeps l') : l.Hidden l' := by
  obtain ⟨entry, hand, hentry, hhand, rfl⟩ := h
  exact .sweep entry hand hentry hhand

theorem Sweeps.page_eq (h : l.Sweeps l') : l'.page = l.page := by
  obtain ⟨entry, hand, -, -, rfl⟩ := h
  rfl

theorem Sweeps.unpinned (h : l.Sweeps l') (hu : l.Unpinned) : l'.Unpinned := by
  obtain ⟨entry, hand, -, -, rfl⟩ := h
  exact hu

namespace Leaves

theorem inFrame (h : l.Leaves id f p l') : ∃ page, l.InFrame id page f p := by
  cases h with
  | anon page s hpage hf hc hp => exact ⟨page, hpage, hf, hp⟩
  | file page g span dirty hpage hf hc hp => exact ⟨page, hpage, hf, hp⟩

theorem hidden (h : l.Leaves id f p l') : l.Hidden l' := by
  cases h with
  | anon page s hpage hf hc hp hs ht => exact .saveAnon id page f p s hpage hf hc hp hs ht
  | file page g span dirty hpage hf hc hp => exact .saveFile id page f p g span dirty hpage hf hc hp

theorem frames (h : l.Leaves id f p l') : l'.frames = l.frames.unbind f := by
  cases h <;> rfl

theorem keepsIdle (h : l.Leaves id f p l') : l.KeepsIdle l' := by
  obtain ⟨q, hin⟩ := h.inFrame
  cases h with
  | anon page s hpage hf hc => exact .of_update hin.home?_eq hpage rfl ⟨rfl, hc ▸ .anon _ _⟩
  | file page g span dirty hpage hf hc =>
      exact .of_update hin.home?_eq hpage rfl ⟨rfl, hc ▸ .file _ _ _ _⟩

theorem spare (h : l.Leaves id f p l') : l'.Spare f p := by
  obtain ⟨q, hin⟩ := h.inFrame
  refine ⟨?_, ?_⟩
  · rw [phys?, h.frames, FrameTable.phys?_unbind]
    exact hin.2.2
  · rw [owner?, h.frames, FrameTable.owner?_unbind, Function.update_self]

end Leaves

namespace Lingers

theorem inFrame (h : l.Lingers id f p l') : ∃ page, l.InFrame id page f p := by
  cases h with
  | full page hpage hf hc hp => exact ⟨page, hpage, hf, hp⟩
  | anon page stored hpage hf hc hp => exact ⟨page, hpage, hf, hp⟩
  | file page g span dirty k hpage hf hc hp => exact ⟨page, hpage, hf, hp⟩

theorem rearranged (h : l.Lingers id f p l') : l.Rearranged l' := by
  cases h with
  | full => exact .refl l
  | anon page stored hpage hf hc hp hs => exact .single (.keepAnon id page f stored hpage hf hc hs)
  | file page g span dirty k hpage hf hc hp hd =>
      exact .single (.keepFile id page f p g span dirty k hpage hf hc hp hd)

theorem frames (h : l.Lingers id f p l') : l'.frames = l.frames := by
  cases h <;> rfl

theorem keepsIdle (h : l.Lingers id f p l') : l.KeepsIdle l' := by
  obtain ⟨q, hin⟩ := h.inFrame
  cases h with
  | full | anon => exact .of_eq rfl
  | file page g span dirty k hpage hf hc =>
      exact .of_update hin.home?_eq hpage rfl ⟨rfl, hc ▸ .file _ _ _ _⟩

end Lingers

variable {v : Option PageId}

theorem Obtains.acquired (h : l.Obtains f p v l') (hu : l.Unpinned) : l.Acquired f p l' := by
  cases h with
  | grow ps hfree hf =>
      subst hf
      have hget := FrameTable.get?_push (t := l.frames) (f := ⟨l.frames.size⟩)
        { page := p, pinned := true }
      rw [if_pos rfl] at hget
      refine ⟨.single (.grow p ps hfree), .of_eq rfl, ⟨?_, ?_⟩, ?_⟩
      · change ((l.frames.push _).2.get? _).map Frame.page = _
        rw [hget, Option.map_some]
      · change ((l.frames.push _).2.get? _).bind Frame.owner = _
        rw [hget, Option.bind_some]
      · intro g h
        obtain ⟨fr, hg, hfr⟩ := h
        rw [FrameTable.get?_push] at hg
        split at hg
        next hi => cases g; simp_all
        next => exact absurd ⟨fr, hg, hfr⟩ (hu g)
  | reuse l₁ hs hf =>
      refine ⟨(Relation.ReflTransGen.single hs.hidden).tail (.pin f), .of_eq hs.page_eq, ⟨?_, ?_⟩,
        pinnedOnly_pin (hs.unpinned hu)⟩
      · exact (congrFun FrameTable.phys?_pin f).trans hf.1
      · exact (congrFun FrameTable.owner?_pin f).trans hf.2
  | evict l₁ l₂ id hs hl =>
      have hspare := hl.spare
      refine ⟨((Relation.ReflTransGen.single hs.hidden).tail hl.hidden).tail (.pin f),
        (KeepsIdle.of_eq hs.page_eq).trans (hl.keepsIdle.trans (.of_eq rfl)), ⟨?_, ?_⟩,
        pinnedOnly_pin ?_⟩
      · exact (congrFun FrameTable.phys?_pin f).trans hspare.1
      · exact (congrFun FrameTable.owner?_pin f).trans hspare.2
      · intro g hg
        rw [hl.frames] at hg
        exact unpinned_unbind (hs.unpinned hu) g hg

theorem Lacks.aborted (h : l.Lacks v l') (hu : l.Unpinned) : l.Aborted l' := by
  cases h with
  | empty => exact ⟨.refl l, .refl l, hu⟩
  | stuck l₁ l₂ id f p hs hl =>
      refine ⟨(Relation.ReflTransGen.single hs.hidden).trans hl.rearranged,
        (KeepsIdle.of_eq hs.page_eq).trans hl.keepsIdle, fun g hg => ?_⟩
      rw [hl.frames] at hg
      exact hs.unpinned hu g hg

end Layout

namespace Machine

variable {m : Machine} {id : PageId} {page : Page} {p : PhysPage} {f : FrameId} {b : PageBytes}

theorem saveAnon_ends (id : PageId) (page : Page) (b : PageBytes)
    (hb : m.layout.bitmap.Exact)
    (hlt : m.layout.bitmap.slots * sectorsPerPage < wordBound) :
    Ends (saveAnon id page none b) m
      (fun _ t => ∃ s : Slot, s.index < m.layout.bitmap.slots ∧
        m.layout.bitmap.test s.index = false ∧ t.layout = { m.layout with
          page := Function.update m.layout.page id (some
            { page with frame? := none, content := .anon (some s) })
          entry := Function.update m.layout.entry id none
          bitmap := m.layout.bitmap.mark s.index
          stored := Function.update m.layout.stored s b })
      (fun e t => (∃ k, e = .errno k) ∧ (t.layout = m.layout ∨ ∃ stored,
        (∀ s : Slot, m.layout.bitmap.test s.index = true → stored s = m.layout.stored s) ∧
        t.layout = { m.layout with
          entry := Function.update m.layout.entry id none
          stored := stored })) := by
  simp only [saveAnon, Option.isNone_none, Step.demand, if_true, pure_bind]
  rw [ends_bind]
  refine allocSlot_ends.mono ?_ fun e t h => ⟨h.1, .inl h.2⟩
  intro s t h
  obtain ⟨hi, ht, hl⟩ := h
  have hu := layout_unmapPage t id
  rw [hl] at hu
  have haddr : Swap.Addressable s := lt_of_le_of_lt (Nat.mul_le_mul_right _ hi.le) hlt
  rw [ends_bind, ends_modify, ends_bind, ends_handle]
  apply (writeSlot_ends haddr).mono
  · intro _ t' hl'
    rw [ends_bind, ends_note, ends_modify]
    refine ⟨s, hi, ht, ?_⟩
    rw [layout_setPage, layout_emit _ rfl, hl', hu]
  · rintro _ t' ⟨⟨e, rfl⟩, stored, hstored, hl'⟩
    rw [hu] at hstored hl'
    have hused : t'.layout.bitmap.test s.index = true := by
      rw [hl']
      change (m.layout.bitmap.mark s.index).test s.index = true
      rw [Swap.Bitmap.test_mark hb.wellFormed hi]
      simp
    have hcount : 0 < t'.layout.bitmap.used := by
      rw [hl']
      exact Nat.succ_pos _
    simp only [ends_bind]
    refine (freeSlot_ends hused hcount).mono
      (fun _ t'' hl'' => ⟨⟨e, rfl⟩, .inr ⟨stored, ?_, ?_⟩⟩) (by simp)
    · intro o ho
      apply hstored o
      rintro rfl
      rw [ht] at ho
      cases ho
    · rw [hl'', hl']
      have := Swap.Bitmap.unmark_mark hi ht
      simp only [this]

theorem saveFile_ends (id : PageId) (page : Page) (g : Segment) (span : Nat) (dirty : Bool)
    (b : PageBytes) :
    Ends (saveFile id page g span dirty b) m
      (fun _ t => t.layout = { m.layout with
        page := Function.update m.layout.page id (some
          { page with frame? := none, content := .file g span false })
        entry := Function.update m.layout.entry id none
        data := if dirty || m.layout.hardDirty id then
          Function.update m.layout.data g.file (g.spill b g.length (m.layout.data g.file))
          else m.layout.data })
      (fun e t => (∃ k, e = .errno k) ∧ (dirty || m.layout.hardDirty id) = true ∧
        ∃ k, t.layout = { m.layout with
          page := Function.update m.layout.page id (some { page with content := .file g span true })
          entry := Function.update m.layout.entry id none
          data := Function.update m.layout.data g.file
            (g.spill b k (m.layout.data g.file)) }) := by
  rw [saveFile, ends_bind, ends_handle]
  apply (writeBack_ends dirty).mono
  · intro _ t hl
    rw [ends_modify, layout_setPage, hl]
  · intro e t h
    obtain ⟨⟨k, rfl⟩, hd, j, hl⟩ := h
    simp only [ends_bind, ends_modify, ends_fail]
    refine ⟨⟨k, rfl⟩, hd, j, ?_⟩
    rw [layout_setPage, hl]

/-- The frame belongs to nobody meanwhile, so that `l` is what the system was
like before. -/
theorem swapOut_ends {l : Layout} (hs : l.Sound)
    (hm : m.layout = { l with frames := (l.frames.unbind f).pin f }) (hf : l.InFrame id page f p) :
    Ends (swapOut id f (l.bytes p)) m
      (fun _ t => ∃ l', l.Leaves id f p l' ∧ t.layout = { l' with frames := l'.frames.pin f })
      (fun e t => (∃ k, e = .errno k) ∧ ∃ l', l.Lingers id f p l' ∧
        t.layout = { l' with frames := (l.frames.unbind f).pin f }) := by
  obtain ⟨hpage, hframe, hp⟩ := hf
  have hget : m.page? id = some page := (congrFun (congrArg Layout.page hm) id).trans hpage
  simp only [swapOut, ends_bind, ends_get, hget, if_pos hframe]
  cases hc : page.content with
  | unloaded kind loader span => exact absurd hc ((hs.coherent hpage).ne_unloaded hframe)
  | anon slot =>
      obtain rfl := (hs.coherent hpage).slot_of_frame hframe hc
      have hanon := saveAnon_ends (m := m) id page (l.bytes p)
        (by rw [hm]; exact hs.bitmap) (by rw [hm]; exact hs.slots_lt)
      rw [hm] at hanon
      apply hanon.mono
      · intro _ t h
        obtain ⟨s, hi, ht, hl⟩ := h
        exact ⟨_, .anon page s hpage hframe hc hp hi ht, hl⟩
      · intro e t h
        obtain ⟨he, hl | ⟨stored, hstored, hl⟩⟩ := h
        · exact ⟨he, l, .full page hpage hframe hc hp, hl⟩
        · exact ⟨he, _, .anon page stored hpage hframe hc hp hstored, hl⟩
  | file g span dirty =>
      have hfile := saveFile_ends (m := m) id page g span dirty (l.bytes p)
      rw [hm] at hfile
      apply hfile.mono
      · intro _ t hl
        exact ⟨_, .file page g span dirty hpage hframe hc hp, hl⟩
      · intro e t h
        obtain ⟨he, hd, k, hl⟩ := h
        exact ⟨he, _, .file page g span dirty k hpage hframe hc hp hd, hl⟩

theorem vacate_ends {l : Layout} (hs : l.Sound) (hu : l.Unpinned)
    (hm : m.layout = { l with frames := (l.frames.unbind f).pin f }) (hf : l.InFrame id page f p) :
    Ends (vacate f p (some id)) m
      (fun _ t => ∃ l', l.Leaves id f p l' ∧ t.layout = { l' with frames := l'.frames.pin f })
      (fun e t => (∃ k, e = .errno k) ∧ l.Lingers id f p t.layout) := by
  have hrange : Ram.InRange m.ram.capacity p := by
    have := hs.inRange hf.2.2
    rwa [show m.ram.capacity = l.capacity from congrArg Layout.capacity hm]
  have hbytes : m.ram.bytes p = l.bytes p := congrFun (congrArg Layout.bytes hm) p
  simp only [vacate, ends_bind, ends_note]
  rw [ends_readFrame (m := m.emit (.evicting id.page f)) hrange, ends_handle]
  change Ends (swapOut id f (m.ram.bytes p)) (m.emit _) _ _
  rw [hbytes]
  have hm' := (layout_emit m (show (Event.evicting id.page f).isLoss = false from rfl)).trans hm
  refine (swapOut_ends hs hm' hf).mono (fun _ _ h => h) ?_
  rintro e t ⟨⟨k, rfl⟩, l', hl', hl⟩
  simp only [ends_bind, ends_note, ends_modify, ends_fail]
  refine ⟨⟨k, rfl⟩, ?_⟩
  have ho : l.frames.owner? f = some id := (hs.owners f id).mpr hf.home?_eq
  rw [layout_onFrames, layout_emit _ rfl, hl]
  change l.Lingers id f p { l' with frames := (((l.frames.unbind f).pin f).bind f id).unpin f }
  rw [FrameTable.rebind_eq_self ho (hu f), ← hl'.frames]
  exact hl'

theorem Passed.sweeps {t : Machine} {i : Nat} (h : Passed m i t) (hpos : 0 < m.frames.size) :
    m.layout.Sweeps (t.onFrames FrameTable.advance).layout := by
  refine ⟨t.mapping?, (m.frames.hand + (i + 1)) % m.frames.size, fun id => ?_,
    lt_of_lt_of_le (Nat.mod_lt _ hpos) (le_max_right _ _), ?_⟩
  · by_cases hid : ∀ j < i, m.sitting? (m.ahead j) ≠ some id
    · exact .inl (h.kept id hid)
    · push Not at hid
      obtain ⟨j, hj, hid⟩ := hid
      exact .inr (h.cooled j hj id hid)
  · have hl : t.layout =
        { m.layout with page := t.page?, entry := t.mapping?, frames := t.frames } :=
      congrArg layout h.rest
    rw [layout_onFrames, hl, h.page]
    change { m.layout with entry := t.mapping?, frames := t.frames.advance } = _
    rw [h.advance]
    rfl

theorem evict_at {t : Machine} {fr : Frame} (hpick : pickVictim m = .ok f t)
    (hs : t.layout.Sound) (hu : t.layout.Unpinned) (hfr : t.frames.get? f = some fr) :
    Ends evict m
      (fun r t' => r = (f, fr.page) ∧
        (t.layout.owner? f = none → t' = t.onFrames (fun x => x.pin f)) ∧
        ∀ id, t.layout.owner? f = some id → ∃ l', t.layout.Leaves id f fr.page l' ∧
          t'.layout = { l' with frames := l'.frames.pin f })
      (fun e t' => (∃ k, e = .errno k) ∧ ∃ id, t.layout.owner? f = some id ∧
        t.layout.Lingers id f fr.page t'.layout) := by
  have hp : t.layout.phys? f = some fr.page := by
    change (t.frames.get? f).map Frame.page = _
    rw [hfr, Option.map_some]
  rw [evict, ends_bind, ends_of_ok hpick]
  simp only [ends_bind]
  rw [ends_frame hfr]
  simp only [ends_get, ends_modify, tenant?_eq_owner? hs hfr]
  cases ho : t.layout.owner? f with
  | none =>
      rw [vacate, ends_pure, ends_pure]
      refine ⟨rfl, fun _ => ?_, by rintro id ⟨⟩⟩
      have hun : t.frames.unbind f = t.frames := FrameTable.unbind_eq_self ho
      rw [onFrames, hun]
      rfl
  | some id =>
      obtain ⟨page, hpage, hframe⟩ := Option.bind_eq_some_iff.mp ((hs.owners f id).mp ho)
      apply (vacate_ends hs hu (layout_onFrames t _) ⟨hpage, hframe, hp⟩).mono
      · rintro _ t' ⟨l', hl', hl⟩
        refine ⟨rfl, fun hn => (by cases hn), ?_⟩
        rintro _ ⟨⟩
        exact ⟨l', hl', hl⟩
      · rintro e t' ⟨he, hl⟩
        exact ⟨he, id, rfl, hl⟩

theorem evict_ends (hs : m.layout.Sound) (hu : m.layout.Unpinned) (hfree : m.layout.free = []) :
    Ends evict m (fun r t => ∃ v, m.layout.Obtains r.1 r.2 v t.layout)
      (fun e t => m.layout.Expects e ∧ ∃ v, m.layout.Lacks v t.layout) := by
  have hpick := pickVictim_ends hs hu
  cases hx : pickVictim m with
  | ok f t =>
      obtain ⟨i, u, hiu, -, ⟨⟨fr, hfr, -⟩, -⟩, rfl⟩ := hpick.of_ok hx
      have hpos : 0 < m.frames.size := by
        rw [← hiu.size]
        exact Nat.zero_lt_of_lt (Array.getElem?_eq_some_iff.mp hfr).1
      have hsw := hiu.sweeps hpos
      have hst := hs.of_hidden hsw.hidden
      have hfr' : (u.onFrames FrameTable.advance).frames.get? f = some fr := hfr
      generalize u.onFrames FrameTable.advance = t at hx hsw hst hfr'
      apply (evict_at hx hst (hsw.unpinned hu) hfr').mono
      · rintro _ t' ⟨rfl, hnone, hsome⟩
        cases ho : t.layout.owner? f with
        | none =>
            have hp : t.layout.phys? f = some fr.page := by
              change (t.frames.get? f).map Frame.page = _
              rw [hfr', Option.map_some]
            rw [hnone ho, layout_onFrames]
            exact ⟨none, .reuse t.layout hsw ⟨hp, ho⟩⟩
        | some id =>
            obtain ⟨l', hl', hl⟩ := hsome id ho
            rw [hl]
            exact ⟨some id, .evict t.layout l' id hsw hl'⟩
      · rintro e t' ⟨⟨k, rfl⟩, id, -, hl⟩
        exact ⟨trivial, some id, .stuck t.layout t'.layout id f fr.page hsw hl⟩
  | error e t =>
      obtain ⟨rfl, hsize, rfl⟩ := hpick.of_error hx
      have hc : m.layout.capacity = 0 := by
        rw [hs.capacity_eq, hfree, List.length_nil, Nat.add_zero]
        exact hsize
      rw [evict, ends_bind, ends_of_error hx]
      refine ⟨⟨rfl, hc⟩, none, ?_⟩
      rw [layout_emit _ rfl]
      exact .empty hc

theorem takeFrame_ends (hs : m.layout.Sound) (hu : m.layout.Unpinned) :
    Ends takeFrame m (fun r t => ∃ v, m.layout.Obtains r.1 r.2 v t.layout)
      (fun e t => m.layout.Expects e ∧ ∃ v, m.layout.Lacks v t.layout) := by
  simp only [takeFrame, ends_bind, ends_get, Ram.alloc?]
  cases hfree : m.ram.free with
  | nil => exact evict_ends hs hu hfree
  | cons p ps =>
      simp only [addFrame, ends_bind, ends_modify, ends_modifyGet, ends_note, ends_pure]
      rw [layout_emit _ rfl]
      exact ⟨none, .grow ps hfree rfl⟩

theorem acquireFrame_obtains (hs : m.layout.Sound) (hu : m.layout.Unpinned) :
    Ends acquireFrame m
      (fun r t => ∃ v l₁, m.layout.Obtains r.1 r.2 v l₁ ∧ t.layout = { l₁ with
        bytes := Function.update l₁.bytes r.2 (Bytes.zero pageSize) })
      (fun e t => m.layout.Expects e ∧ ∃ v, m.layout.Lacks v t.layout) := by
  rw [acquireFrame, ends_bind]
  refine (takeFrame_ends hs hu).mono ?_ fun e t h => h
  rintro ⟨f, p⟩ t ⟨v, h⟩
  have ha := h.acquired hu
  have hrange : Ram.InRange t.ram.capacity p := (hs.of_rearranged ha.reach).inRange ha.spare.1
  simp only [ends_bind, ends_writeFrame hrange, ends_pure, layout_store t hrange]
  exact ⟨v, t.layout, h, rfl⟩

theorem acquireFrame_ends (hs : m.layout.Sound) (hu : m.layout.Unpinned) :
    Ends acquireFrame m
      (fun r t => m.layout.Acquired r.1 r.2 t.layout ∧ t.layout.bytes r.2 = Bytes.zero pageSize)
      (fun e t => m.layout.Expects e ∧ m.layout.Aborted t.layout) := by
  refine (acquireFrame_obtains hs hu).mono ?_ ?_
  · rintro ⟨f, p⟩ t ⟨v, l₁, h, hl⟩
    rw [hl]
    exact ⟨(h.acquired hu).scribble _, Function.update_self ..⟩
  · rintro e t ⟨he, v, h⟩
    exact ⟨he, h.aborted hu⟩

end Machine

end Pager
