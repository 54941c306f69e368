import Pager.Machine.Claim
import Pager.Proofs.Evicting

namespace Pager

open Step

inductive Content.Enters : Content → Content → Prop
  | load (loader : Option Loader) (span : Nat) :
      Enters (.unloaded .anon loader span) (.anon none)
  | swapIn (s : Slot) : Enters (.anon (some s)) (.anon none)
  | first (loader : Option Loader) (span : Nat) (g : Segment)
      (hg : loader.bind Loader.backing? = some g) :
      Enters (.unloaded .file loader span) (.file g span false)
  | readIn (g : Segment) (span : Nat) : Enters (.file g span false) (.file g span false)

theorem Content.Enters.segment? {f : FrameId} {page : Page} {c : Content}
    (h : page.content.Enters c) :
    ({ page with frame? := some f, content := c } : Page).segment? = page.segment? := by
  obtain ⟨w, o, d⟩ := page
  cases h with
  | load | swapIn | readIn => rfl
  | first loader span g hg => exact hg.symm

namespace Layout

variable {l l' : Layout} {id : PageId} {page : Page} {p : PhysPage} {f : FrameId}

/-- What can be seen of a page coming into a frame, where `w` is the world that
its loader leaves. -/
inductive Loads (id : PageId) (page : Page) (w : World) : List Change → Prop
  | hidden (hc : ∀ loader span, page.content ≠ .unloaded .anon loader span) : Loads id page w []
  | load (loader : Option Loader) (span : Nat) (b : PageBytes)
      (hc : page.content = .unloaded .anon loader span) (hb : w.Yields loader b) :
      Loads id page w [.load id b]

theorem Loads.of_frame {w : World} (hc : page.Coherent) (hf : page.frame? = some f) :
    Loads id page w [] :=
  .hidden fun _ _ => hc.ne_unloaded hf

def Loaded (l : Layout) (p : PhysPage) (loader : Option Loader) (l' : Layout) : Prop :=
  ∃ b runs, (∀ k, l.runs k ≤ runs k) ∧ (World.mk l.data runs).Yields loader b ∧
    l' = { l with bytes := Function.update l.bytes p b, runs := runs }

def Scribbled (l : Layout) (p : PhysPage) (l' : Layout) : Prop :=
  ∃ b runs, (∀ k, l.runs k ≤ runs k) ∧
    l' = { l with bytes := Function.update l.bytes p b, runs := runs }

theorem Scribbled.refl (l : Layout) (p : PhysPage) : l.Scribbled p l :=
  ⟨l.bytes p, l.runs, fun _ => le_rfl, by rw [Function.update_eq_self]⟩

structure Brings (l : Layout) (id : PageId) (page : Page) (f : FrameId) (p : PhysPage)
    (c : Content) (cs : List Change) (l' : Layout) : Prop where
  course : l.Course cs l'
  loads : Loads id page l'.world cs
  pages : l'.page = Function.update l.page id (some { page with frame? := some f, content := c })
  enters : page.content.Enters c
  entry : l'.entry id = some (.fresh p page.writable)
  frames : l'.frames = l.frames.bind f id

theorem pinnedOnly_bind (h : l.PinnedOnly f) :
    PinnedOnly { l with frames := l.frames.bind f id } f := by
  intro g h
  obtain ⟨fr, hg, hfr⟩ := h
  rw [FrameTable.bind, FrameTable.get?_modify] at hg
  split at hg
  next he => exact he.symm
  next => exact h g ⟨fr, hg, hfr⟩

theorem Brings.pinned {c : Content} {cs : List Change} (h : l.Brings id page f p c cs l')
    (hp : l.PinnedOnly f) : l'.PinnedOnly f := by
  intro g hg
  rw [h.frames] at hg
  exact pinnedOnly_bind hp g hg

theorem Brings.inFrame {c : Content} {cs : List Change} (h : l.Brings id page f p c cs l')
    (hp : l.phys? f = some p) :
    l'.InFrame id { page with frame? := some f, content := c } f p := by
  refine ⟨by rw [h.pages, Function.update_self], rfl, ?_⟩
  rw [phys?, h.frames, FrameTable.phys?_bind]
  exact hp

/-- A page was not made accessible. If it is in no frame then there was none to be
had, or one that a page had to leave, which is named, was given up with what a
load left in it. -/
inductive Thwarts (l : Layout) (id : PageId) : Option PageId → Layout → Prop
  | refused : Thwarts l id none l
  | lacks {v : Option PageId} {l₁ : Layout} (hid : l.home? id = none) (h : l.Lacks v l₁) :
      Thwarts l id v l₁
  | undone {v : Option PageId} (l₁ : Layout) (f : FrameId) (p : PhysPage) (b : PageBytes)
      (runs : Nat → Nat) (hid : l.home? id = none) (h : l.Obtains f p v l₁)
      (hruns : ∀ k, l₁.runs k ≤ runs k) :
      Thwarts l id v { l₁ with
        bytes := Function.update l₁.bytes p b, frames := l₁.frames.unpin f, runs := runs }

theorem Thwarts.aborted {v : Option PageId} (h : l.Thwarts id v l') (hu : l.Unpinned) :
    l.Aborted l' := by
  cases h with
  | refused => exact ⟨.refl l, .refl l, hu⟩
  | lacks hid h => exact h.aborted hu
  | undone l₁ f p b runs hid h hruns =>
      have ha := (h.acquired hu).scribble b
      exact ⟨(ha.reach.tail (.rerun runs hruns)).tail (.unpin f), ha.idle.trans (.of_eq rfl),
        unpinned_unpin ha.pinned⟩

/-- A page is in a frame and mapped, neither accessed nor dirty. If it was
mapped before, what its mapping had noted is gone. -/
structure Claimed (l : Layout) (id : PageId) (page : Page) (cs : List Change) (l' : Layout) :
    Prop where
  course : l.Course cs l'
  loads : Loads id page l'.world cs ∨ cs = [.refresh id] ∧ l.entry id ≠ none
  resident : ∃ q f p, l'.InFrame id q f p ∧ q.writable = page.writable ∧
    l'.entry id = some (.fresh p page.writable)

end Layout

namespace Machine

variable {m : Machine} {id : PageId} {page : Page} {p : PhysPage} {f : FrameId} {b : PageBytes}
  {g : Segment} {q : Producer} {s : Slot} {l : Layout}

theorem layout_store_of_eq {t : Machine} (h : Ram.InRange m.ram.capacity p) (ht : t.ram = m.ram) :
    (t.withRam (m.ram.store p b)).layout =
      { t.layout with bytes := Function.update t.layout.bytes p b } := by
  rw [← ht] at h ⊢
  exact layout_store t h b

theorem inFrame_ends {x : Step (Machine × PageBytes) Unit} (h : Ram.InRange m.ram.capacity p)
    {Q : Layout → Prop} {E : Failure → Layout → Prop}
    (hx : Ends x (m, m.ram.bytes p)
      (fun _ t => t.1.ram = m.ram ∧
        Q { t.1.layout with bytes := Function.update t.1.layout.bytes p t.2 })
      (fun e t => t.1.ram = m.ram ∧
        E e { t.1.layout with bytes := Function.update t.1.layout.bytes p t.2 })) :
    Ends (inFrame p x) m (fun _ t => Q t.layout) (fun e t => E e t.layout) := by
  refine Ends.inFrame h (hx.mono ?_ ?_)
  · intro _ t h
    obtain ⟨hr, hQ⟩ := h
    exact ⟨hr, by rwa [layout_store_of_eq h hr]⟩
  · intro e t h
    obtain ⟨hr, hE⟩ := h
    exact ⟨hr, by rwa [layout_store_of_eq h hr]⟩

theorem loadSegment_ends :
    Ends (loadSegment g) (m, b)
      (fun _ t => t.1.ram = m.ram ∧ t.1.layout = m.layout ∧
        g.Fits (m.layout.data g.file).size ∧ t.2 = g.image (m.layout.data g.file))
      (fun e t => (∃ k, e = .errno k) ∧ t.1.ram = m.ram ∧ t.1.layout = m.layout) := by
  have hload := Segment.load_ends (g := g) (f := m.files.get g.file) (b := b)
  unfold Ends loadSegment
  simp only
  rcases hl : g.load (m.files.get g.file, b) with ⟨u, d, b'⟩ | ⟨e, d, b'⟩
  · obtain ⟨hd, hfit, hb⟩ := hload.of_ok hl
    exact ⟨rfl, layout_withFile_same m hd, hfit, hb⟩
  · have hd := hload.of_error hl
    cases e with
    | errno k => exact ⟨⟨k, rfl⟩, rfl, layout_withFile_same m hd⟩
    | short n =>
        refine ⟨⟨_, rfl⟩, rfl, ?_⟩
        exact (layout_emit (m.withFile g.file d) rfl).trans (layout_withFile_same m hd)

theorem runProducer_ends :
    Ends (runProducer q) (m, b)
      (fun _ t => t.1.ram = m.ram ∧ t.1.layout = { m.layout with
          runs := Function.update m.layout.runs q.key (m.layout.runs q.key + 1) } ∧
        q.run (m.layout.runs q.key) b = (t.2, none))
      (fun e t => (∃ k, e = .errno k) ∧ t.1.ram = m.ram ∧ t.1.layout = { m.layout with
          runs := Function.update m.layout.runs q.key (m.layout.runs q.key + 1) }) := by
  have hruns : (m.runs.set q.key (m.runs.get q.key + 1)).get =
      Function.update m.layout.runs q.key (m.layout.runs q.key + 1) := by
    funext k
    rw [Store.get_set, Function.update_apply]
    simp only [eq_comm (a := q.key)]
    rfl
  have hl := layout_withRuns m (m.runs.set q.key (m.runs.get q.key + 1))
  rw [hruns] at hl
  have hrun : q.run (m.runs.get q.key) b = q.run (m.layout.runs q.key) b := rfl
  unfold Ends runProducer
  simp only
  rcases hq : q.run (m.runs.get q.key) b with ⟨b', _ | e⟩
  · exact ⟨rfl, hl, hrun ▸ hq⟩
  · exact ⟨⟨e, rfl⟩, rfl, hl⟩

theorem onSwapPage_takeBack_ends (h : Swap.Addressable s)
    (hu : m.layout.bitmap.test s.index = true) (hn : 0 < m.layout.bitmap.used) :
    Ends (onSwapPage (Swap.takeBack s)) (m, b)
      (fun _ t => t.1.ram = m.ram ∧ t.1.layout = { m.layout with
          bitmap := m.layout.bitmap.unmark s.index } ∧ t.2 = m.layout.stored s)
      (fun e t => (∃ k, e = .errno k) ∧ t.1.ram = m.ram ∧ t.1.layout = m.layout) := by
  rw [onSwapPage, ends_zoom]
  apply (Swap.takeBack_ends h hu hn).mono
  · rintro _ ⟨w, b'⟩ ⟨hb, hs, hp⟩
    exact ⟨rfl, layout_withSwap_of_eq m hb hs, hp⟩
  · rintro e ⟨w, b'⟩ ⟨he, hb, hs⟩
    exact ⟨he, rfl, layout_withSwap_of_eq m hb hs⟩

theorem onSwapPage_read_ends (h : Swap.Addressable s)
    (hu : m.layout.bitmap.test s.index = true) :
    Ends (readSlot s) (m, b)
      (fun _ t => t.1.ram = m.ram ∧ t.1.layout = m.layout ∧ t.2 = m.layout.stored s)
      (fun e t => (∃ k, e = .errno k) ∧ t.1.ram = m.ram ∧ t.1.layout = m.layout ∧
        ∃ i < sectorsPerPage, t.2 = Swap.overlay i (m.layout.stored s) b) := by
  rw [readSlot, onSwapPage, ends_zoom]
  apply (Swap.read_ends h hu).mono
  · rintro _ ⟨w, b'⟩ ⟨hb, hs, hp⟩
    exact ⟨rfl, layout_withSwap_of_eq m hb hs, hp⟩
  · rintro e ⟨w, b'⟩ ⟨he, hb, hs, hp⟩
    exact ⟨he, rfl, layout_withSwap_of_eq m hb hs, hp⟩

theorem readInto_ends (hr : Ram.InRange m.layout.capacity p) (g : Segment) :
    Ends (inFrame p (loadSegment g)) m
      (fun _ t => g.Fits (m.layout.data g.file).size ∧ t.layout = { m.layout with
        bytes := Function.update m.layout.bytes p (g.image (m.layout.data g.file)) })
      (fun e t => (∃ k, e = .errno k) ∧ m.layout.Scribbled p t.layout) := by
  refine inFrame_ends (Q := fun l => g.Fits (m.layout.data g.file).size ∧ l = _)
    (E := fun e l => (∃ k, e = .errno k) ∧ m.layout.Scribbled p l) hr ?_
  apply loadSegment_ends.mono
  · rintro _ ⟨t, b⟩ ⟨ht, hl, hfit, rfl⟩
    exact ⟨ht, hfit, by rw [hl]⟩
  · rintro e ⟨t, b⟩ ⟨he, ht, hl⟩
    exact ⟨ht, he, b, m.layout.runs, fun _ => le_rfl, by rw [hl]⟩

theorem runs_le_update (l : Layout) (k j : Nat) :
    l.runs j ≤ Function.update l.runs k (l.runs k + 1) j := by
  rw [Function.update_apply]
  split
  next h => rw [h]; exact Nat.le_succ _
  next => exact le_rfl

theorem loadInto_ends (hr : Ram.InRange m.layout.capacity p)
    (hz : m.layout.bytes p = Bytes.zero pageSize) (loader : Option Loader) :
    Ends (loadInto p loader) m (fun _ t => m.layout.Loaded p loader t.layout)
      (fun e t => (∃ k, e = .errno k) ∧ m.layout.Scribbled p t.layout) := by
  have hz' : m.ram.bytes p = Bytes.zero pageSize := hz
  cases loader with
  | none =>
      refine ⟨Bytes.zero pageSize, m.layout.runs, fun _ => le_rfl, rfl, ?_⟩
      rw [← hz, Function.update_eq_self]
  | some loader =>
      cases loader with
      | segment g =>
          refine (readInto_ends hr g).mono ?_ fun e t h => h
          intro _ t h
          obtain ⟨hfit, hl⟩ := h
          exact ⟨_, m.layout.runs, fun _ => le_rfl, ⟨hfit, rfl⟩, hl⟩
      | producer q =>
          refine inFrame_ends (Q := m.layout.Loaded p _)
            (E := fun e l => (∃ k, e = .errno k) ∧ m.layout.Scribbled p l) hr ?_
          apply runProducer_ends.mono
          · rintro _ ⟨t, b⟩ ⟨ht, hl, hq⟩
            rw [hz'] at hq
            refine ⟨ht, b, _, runs_le_update m.layout q.key,
              ⟨m.layout.runs q.key, ?_, hq⟩, by rw [hl]⟩
            exact Function.update_self ..
          · rintro e ⟨t, b⟩ ⟨he, ht, hl⟩
            exact ⟨ht, he, b, _, runs_le_update m.layout q.key, by rw [hl]⟩

theorem takeBackInto_ends (hr : Ram.InRange m.layout.capacity p) (h : Swap.Addressable s)
    (hu : m.layout.bitmap.test s.index = true) (hn : 0 < m.layout.bitmap.used) :
    Ends (inFrame p (onSwapPage (Swap.takeBack s))) m
      (fun _ t => t.layout = { m.layout with
        bytes := Function.update m.layout.bytes p (m.layout.stored s)
        bitmap := m.layout.bitmap.unmark s.index })
      (fun e t => (∃ k, e = .errno k) ∧ m.layout.Scribbled p t.layout) := by
  refine inFrame_ends (Q := fun l => l = _)
    (E := fun e l => (∃ k, e = .errno k) ∧ m.layout.Scribbled p l) hr ?_
  apply (onSwapPage_takeBack_ends h hu hn).mono
  · rintro _ ⟨t, b⟩ ⟨ht, hl, rfl⟩
    exact ⟨ht, by rw [hl]⟩
  · rintro e ⟨t, b⟩ ⟨he, ht, hl⟩
    exact ⟨ht, he, b, m.layout.runs, fun _ => le_rfl, by rw [hl]⟩

theorem brings_readIn (hpage : l.page id = some page) (hn : page.frame? = none)
    (hg : page.segment? = some g) (hfit : g.Fits (l.data g.file).size) (hf : l.Spare f p)
    (he : page.content.Enters (.file g page.span false)) :
    l.Brings id page f p (.file g page.span false) []
      (l.settle id page f p (.file g page.span false) (g.image (l.data g.file))) where
  course := .nil (.single (.readIn id page f p g hpage hn hg hfit hf))
  loads := .hidden fun loader span hc => by simp [Page.segment?, hc] at hg
  pages := rfl
  enters := he
  entry := Function.update_self ..
  frames := rfl

theorem wipe_ends (hr : Ram.InRange m.layout.capacity p)
    (hz : m.layout.bytes p = Bytes.zero pageSize) :
    Ends (writeFrame p (Bytes.zero pageSize)) m (fun _ t => t.layout = m.layout)
      (fun _ _ => False) := by
  rw [ends_writeFrame hr, layout_store m hr, ← hz, Function.update_eq_self]

/-- The mapping is there before the bytes are, while `l` tells what the system
was like before both. -/
theorem fetch_ends (hs : l.Sound) (hpage : l.page id = some page) (hn : page.frame? = none)
    (hf : l.Spare f p) (hz : l.bytes p = Bytes.zero pageSize)
    (hm : m.layout = { l with
      entry := Function.update l.entry id (some (.fresh p page.writable)) }) :
    Ends (fetch id page.content p) m
      (fun c t => ∃ cs, l.Brings id page f p c cs { t.layout with
        page := Function.update t.layout.page id (some { page with frame? := some f, content := c })
        frames := t.layout.frames.bind f id })
      (fun e t => (∃ k, e = .errno k) ∧ m.layout.Scribbled p t.layout) := by
  have hr : Ram.InRange m.layout.capacity p := by
    rw [hm]
    exact hs.inRange hf.1
  have hzm : m.layout.bytes p = Bytes.zero pageSize := by rw [hm]; exact hz
  cases hc : page.content with
  | unloaded kind loader span =>
      cases kind with
      | anon =>
          simp only [fetch, ends_bind, ends_note, ends_pure]
          refine (wipe_ends hr hzm).mono ?_ fun _ _ h => h.elim
          intro _ t₀ h₀
          rw [← h₀] at hr hzm hm ⊢
          refine (loadInto_ends hr hzm loader).mono ?_ fun e t h => h
          intro _ t h
          obtain ⟨b, runs, hruns, hb, hl⟩ := h
          rw [layout_emit _ rfl, hl, hm]
          rw [hm] at hruns hb
          refine ⟨[.load id b], ?_, .load loader span b hc hb, rfl, hc ▸ .load loader span,
            Function.update_self .., rfl⟩
          exact .cons (.single (.rerun runs hruns))
            (.load id page loader span f p b hpage hn hc hf hb) (.refl _)
      | file =>
          have hspan : page.span = span := by rw [Page.span, hc]
          simp only [fetch]
          cases hg : loader.bind Loader.backing? with
          | none => exact ⟨⟨_, rfl⟩, .refl _ _⟩
          | some g =>
              simp only [ends_bind, ends_note, ends_pure]
              refine (wipe_ends hr hzm).mono ?_ fun _ _ h => h.elim
              intro _ t₀ h₀
              rw [← h₀] at hr hm ⊢
              refine (readInto_ends hr g).mono ?_ fun e t h => h
              intro _ t h
              obtain ⟨hfit, hl⟩ := h
              rw [layout_emit _ rfl, hl, hm, ← hspan]
              rw [hm] at hfit
              exact ⟨[], brings_readIn hpage hn (by rw [Page.segment?, hc]; exact hg) hfit hf
                (by rw [hc, hspan]; exact .first loader span g hg)⟩
  | anon slot =>
      obtain ⟨s, rfl⟩ := (hs.coherent hpage).slot_of_idle hn hc
      have hslot : l.slot? id = some s := by simp [Layout.slot?, hpage, Page.slot?, hc]
      have hused := hs.test_slot hslot
      have haddr := hs.addressable (Swap.Bitmap.lt_of_test hused)
      simp only [fetch, ends_bind, ends_note, ends_pure]
      have hcount := hs.bitmap.used_pos hused
      refine (takeBackInto_ends hr haddr (by rw [hm]; exact hused)
        (by rw [hm]; exact hcount)).mono ?_ fun e t h => h
      intro _ t hl
      rw [layout_emit _ rfl, hl, hm]
      exact ⟨[], .nil (.single (.swapIn id page f p s hpage hn hc hf)), .hidden (by simp [hc]),
        rfl, hc ▸ .swapIn s, Function.update_self .., rfl⟩
  | file g span dirty =>
      have hspan : page.span = span := by rw [Page.span, hc]
      obtain rfl := (hs.coherent hpage).clean_of_idle hn hc
      simp only [fetch, ends_bind, ends_pure]
      refine (readInto_ends hr g).mono ?_ fun e t h => h
      intro _ t h
      obtain ⟨hfit, hl⟩ := h
      rw [hl, hm, ← hspan]
      rw [hm] at hfit
      exact ⟨[], brings_readIn hpage hn (by rw [Page.segment?, hc]) hfit hf
        (by rw [hc, hspan]; exact .readIn g span)⟩

theorem thwarts_undo {l l₁ : Layout} {v : Option PageId} (hid : l.home? id = none)
    (ho : l.Obtains f p v l₁) (hf : l₁.Spare f p) (hid₁ : l₁.entry id = none)
    {en : PageId → Option Entry} (hen : ∀ k ≠ id, en k = l₁.entry k)
    (hl : Layout.Scribbled
      { l₁ with entry := en, bytes := Function.update l₁.bytes p b } p m.layout) :
    l.Thwarts id v ((m.unmapPage id).onFrames (fun t => (t.unbind f).unpin f)).layout := by
  obtain ⟨b', runs, hruns, hl⟩ := hl
  have hentry : Function.update en id none = l₁.entry := by
    funext k
    rw [Function.update_apply]
    split
    next hk => rw [hk, hid₁]
    next hk => exact hen k hk
  rw [layout_onFrames, layout_unmapPage, hl]
  simp only [hentry, Function.update_idem]
  rw [FrameTable.unbind_eq_self hf.2]
  exact .undone l₁ f p b' runs hid ho hruns

theorem ends_demandIdle (hid : m.layout.home? id = none) {Q : Unit → Machine → Prop}
    {E : Failure → Machine → Prop} : Ends (demandIdle id) m Q E ↔ Q () m := by
  have hall : (m.page? id).all (fun page => !page.resident) = true := by
    cases hpage : m.page? id with
    | none => rfl
    | some page =>
        have hpage' : m.layout.page id = some page := hpage
        rw [Layout.home?, hpage', Option.bind_some] at hid
        rw [Option.all_some, Page.resident, hid]
        rfl
  simp only [demandIdle, ends_bind, ends_get, hall, ends_demand, true_imp_iff, reduceCtorEq,
    false_imp_iff, and_true]

theorem occupy_ends (hs : m.layout.Sound) (hu : m.layout.Unpinned)
    (hpage : m.layout.page id = some page) (hn : page.frame? = none) :
    Ends (occupy id page) m
      (fun r t => ∃ l₁ c cs, m.layout.Acquired r.1 r.2 l₁ ∧
        l₁.Brings id page r.1 r.2 c cs t.layout)
      (fun e t => m.layout.Expects e ∧ ∃ v, m.layout.Thwarts id v t.layout) := by
  have hid : m.layout.home? id = none := by rw [Layout.home?, hpage, Option.bind_some, hn]
  rw [occupy, ends_bind]
  refine (acquireFrame_obtains hs hu).mono ?_ fun e t h => ⟨h.1, h.2.imp fun _ => .lacks hid⟩
  rintro ⟨f, p⟩ t ⟨v, l₀, ho, hl⟩
  have hs₀ := hs.of_rearranged (ho.acquired hu).reach
  have hf₀ := (ho.acquired hu).spare
  have ha : m.layout.Acquired f p t.layout := by
    rw [hl]
    exact (ho.acquired hu).scribble _
  have hz : t.layout.bytes p = Bytes.zero pageSize := by
    rw [hl]
    exact Function.update_self ..
  have hs₁ := hs.of_rearranged ha.reach
  have hpage₁ : t.layout.page id = some page := (ha.idle.idle id hid).trans hpage
  have hid₁ : t.layout.home? id = none := by rw [Layout.home?, hpage₁, Option.bind_some, hn]
  have hid₀ : l₀.entry id = none := hs₀.entry_eq_none (by rwa [hl] at hid₁)
  simp only [ends_bind, ends_onFailure, ends_modify, ends_note, ends_pure, ends_demandIdle hid₁]
  apply (install_ends page.writable).mono
  · intro _ t₂ hl₂
    apply (fetch_ends hs₁ hpage₁ hn ha.spare hz hl₂).mono
    · intro c t₃ h
      obtain ⟨cs, hb⟩ := h
      refine ⟨t.layout, c, cs, ha, ?_⟩
      rw [layout_emit _ rfl, layout_onFrames, layout_setPage]
      exact hb
    · intro e t₃ h
      obtain ⟨⟨k, rfl⟩, hscr⟩ := h
      rw [hl₂, hl] at hscr
      exact ⟨trivial, v, thwarts_undo hid ho hf₀ hid₀ (fun k hk => Function.update_of_ne hk ..)
        hscr⟩
  · intro e t₂ h
    obtain ⟨⟨k, rfl⟩, hl₂⟩ := h
    refine ⟨trivial, v, thwarts_undo (b := Bytes.zero pageSize) hid ho hf₀ hid₀ (fun _ _ => rfl) ?_⟩
    rw [hl₂, hl]
    exact .refl _ p

theorem claimPage_ends (hs : m.layout.Sound) (hu : m.layout.Unpinned)
    (hpage : m.layout.page id = some page) :
    Ends (claimPage id page) m
      (fun _ t => ∃ cs, m.layout.Claimed id page cs t.layout ∧ t.layout.Unpinned)
      (fun e t => m.layout.Expects e ∧ ∃ v, m.layout.Thwarts id v t.layout) := by
  rw [claimPage]
  cases hf : page.frame? with
  | none =>
      simp only [ends_bind, ends_modify]
      refine (occupy_ends hs hu hpage hf).mono ?_ fun e t h => h
      rintro ⟨f, p⟩ t ⟨l₁, c, cs, ha, hb⟩
      rw [layout_onFrames]
      refine ⟨cs, ⟨(Layout.Course.after ha.reach hb.course).tail (.single (.unpin f)),
        .inl hb.loads, { page with frame? := some f, content := c }, f, p, ?_, rfl, hb.entry⟩,
        Layout.unpinned_unpin (hb.pinned ha.pinned)⟩
      obtain ⟨hq, hqf, hqp⟩ := hb.inFrame ha.spare.1
      exact ⟨hq, hqf, (congrFun FrameTable.phys?_unpin f).trans hqp⟩
  | some f =>
      have hid : m.layout.home? id = some f := by rw [Layout.home?, hpage, Option.bind_some, hf]
      obtain ⟨fr, hfr, -⟩ := Option.bind_eq_some_iff.mp ((hs.owners f id).mpr hid)
      have hp : m.layout.phys? f = some fr.page := by
        change (m.frames.get? f).map Frame.page = _
        rw [show m.frames.get? f = some fr from hfr, Option.map_some]
      simp only [ends_bind]
      rw [ends_frame hfr]
      apply (install_ends page.writable).mono
      · intro _ t hl
        rw [hl]
        have hin : m.layout.InFrame id page f fr.page := ⟨hpage, hf, hp⟩
        by_cases he : m.layout.entry id = none
        · exact ⟨[], ⟨.nil (.single (.remap id page f fr.page hpage hf hp he)),
            .inl (.of_frame (hs.coherent hpage) hf), page, f, fr.page, hin, rfl,
            Function.update_self ..⟩, hu⟩
        · exact ⟨[.refresh id], ⟨.single (.refresh id page f fr.page hin), .inr ⟨rfl, he⟩,
            page, f, fr.page, hin, rfl, Function.update_self ..⟩, hu⟩
      · intro e t h
        obtain ⟨⟨k, rfl⟩, hl⟩ := h
        rw [hl]
        exact ⟨trivial, none, .refused⟩

end Machine

end Pager
