import Pager.Proofs.Hidden

namespace Pager

/-- What a loader depends on besides the page. -/
structure World where
  data : FileId → Array UInt8
  runs : Nat → Nat

/-- What a loader that has just run put into a page of zeros. -/
def World.Yields (w : World) : Option Loader → PageBytes → Prop
  | none, b => b = Bytes.zero pageSize
  | some (.segment g), b => g.Fits (w.data g.file).size ∧ b = g.image (w.data g.file)
  | some (.producer q), b =>
      ∃ n, w.runs q.key = n + 1 ∧ q.run n (Bytes.zero pageSize) = (b, none)

/-- What an operation does that a program can see. -/
inductive Change
  | register (id : PageId) (page : Page)
  | load (id : PageId) (b : PageBytes)
  | refresh (id : PageId)
  | store (id : PageId) (i : Nat) (bs : List UInt8)
  | fill (id : PageId) (b : PageBytes)
  | destroy (id : PageId)

def Change.Makes : Change → Prop
  | register _ _ | load _ _ | fill _ _ => True
  | refresh _ | store _ _ _ | destroy _ => False

def Change.Fills (id : PageId) : Change → Prop
  | load o _ | fill o _ => o = id
  | register _ _ | refresh _ | store _ _ _ | destroy _ => False

theorem Change.Fills.makes {id : PageId} {c : Change} (h : c.Fills id) : c.Makes := by
  cases c <;> trivial

namespace Layout

variable {l l' l'' : Layout} {id : PageId} {p : PhysPage} {f : FrameId} {c : Change}
  {cs ds : List Change}

def world (l : Layout) : World := ⟨l.data, l.runs⟩

def InFrame (l : Layout) (id : PageId) (page : Page) (f : FrameId) (p : PhysPage) : Prop :=
  l.page id = some page ∧ page.frame? = some f ∧ l.phys? f = some p

theorem InFrame.home?_eq {page : Page} (h : l.InFrame id page f p) : l.home? id = some f := by
  rw [home?, h.1, Option.bind_some, h.2.1]

/-- The bytes are those that the page has already, or those of a page of the
same part of a file, if the page is one of a file. -/
def Echoes (l : Layout) (page : Page) (p : PhysPage) (b : PageBytes) : Prop :=
  ∀ g, page.segment? = some g → b = l.bytes p ∨
    ∃ src q k r, l.InFrame src q k r ∧ q.segment? = some g ∧ b = l.bytes r

def forget (l : Layout) (id : PageId) : Layout :=
  { l with page := Function.update l.page id none, entry := Function.update l.entry id none }

inductive ChangeStep (l : Layout) : Change → Layout → Prop
  | register (id : PageId) (page : Page) (hpage : l.page id = none) (hl : page.loaded = false)
      (hh : WellFormed id.page page) :
      ChangeStep l (.register id page) { l with page := Function.update l.page id (some page) }
  | load (id : PageId) (page : Page) (loader : Option Loader) (span : Nat) (f : FrameId)
      (p : PhysPage) (b : PageBytes) (hpage : l.page id = some page) (hn : page.frame? = none)
      (hc : page.content = .unloaded .anon loader span) (hf : l.Spare f p)
      (hb : l.world.Yields loader b) :
      ChangeStep l (.load id b) (l.settle id page f p (.anon none) b)
  | refresh (id : PageId) (page : Page) (f : FrameId) (p : PhysPage)
      (hf : l.InFrame id page f p) :
      ChangeStep l (.refresh id) { l with
        entry := Function.update l.entry id (some (.fresh p page.writable)) }
  | store (id : PageId) (page : Page) (f : FrameId) (p : PhysPage) (i : Nat) (bs : List UInt8)
      (hf : l.InFrame id page f p) (hw : page.writable = true) (he : (l.entry id).isSome) :
      ChangeStep l (.store id i bs) { l with
        entry := Function.update l.entry id ((l.entry id).map (fun e => e.set .dirty true))
        bytes := Function.update l.bytes p (Bytes.splice (l.bytes p) i bs) }
  | fill (id : PageId) (page : Page) (f : FrameId) (p : PhysPage) (b : PageBytes)
      (hf : l.InFrame id page f p) (hb : l.Echoes page p b) :
      ChangeStep l (.fill id b) { l with bytes := Function.update l.bytes p b }
  | destroyIdle (id : PageId) (page : Page) (hpage : l.page id = some page)
      (hf : page.frame? = none) (hs : page.slot? = none) :
      ChangeStep l (.destroy id) (l.forget id)
  | destroySlot (id : PageId) (page : Page) (s : Slot) (hpage : l.page id = some page)
      (hn : page.frame? = none) (hc : page.content = .anon (some s)) :
      ChangeStep l (.destroy id) { l.forget id with bitmap := l.bitmap.unmark s.index }
  | destroyFrame (id : PageId) (page : Page) (f : FrameId) (hpage : l.page id = some page)
      (hf : page.frame? = some f) (hc : page.content = .anon none) :
      ChangeStep l (.destroy id) { l.forget id with frames := l.frames.unbind f }
  | destroyFile (id : PageId) (page : Page) (f : FrameId) (p : PhysPage) (g : Segment)
      (span : Nat) (dirty : Bool) (hf : l.InFrame id page f p)
      (hc : page.content = .file g span dirty) :
      ChangeStep l (.destroy id) { l.forget id with
        frames := l.frames.unbind f
        data := if dirty || l.hardDirty id then l.spill g p g.length else l.data }
  | destroyLost (id : PageId) (page : Page) (f : FrameId) (p : PhysPage) (g : Segment)
      (span : Nat) (dirty : Bool) (k : Nat) (hf : l.InFrame id page f p)
      (hc : page.content = .file g span dirty)
      (hd : (dirty || l.hardDirty id) = true) :
      ChangeStep l (.destroy id) { l.forget id with
        frames := l.frames.unbind f
        data := l.spill g p k
        lost := l.lost + 1 }

/-- Changes in this order, with hidden moves before, between and after them. -/
inductive Course : Layout → List Change → Layout → Prop
  | nil {l l' : Layout} (h : l.Rearranged l') : Course l [] l'
  | cons {l l₁ l₂ l' : Layout} {c : Change} {cs : List Change} (h : l.Rearranged l₁)
      (hc : l₁.ChangeStep c l₂) (ht : Course l₂ cs l') : Course l (c :: cs) l'

namespace Course

theorem refl (l : Layout) : l.Course [] l := .nil (.refl l)

theorem single (h : l.ChangeStep c l') : l.Course [c] l' := .cons (.refl l) h (.refl l')

theorem after (h : l.Rearranged l') (h' : l'.Course cs l'') : l.Course cs l'' := by
  cases h' with
  | nil h₁ => exact .nil (h.trans h₁)
  | cons h₁ hc ht => exact .cons (h.trans h₁) hc ht

theorem append (h : l.Course cs l') (h' : l'.Course ds l'') : l.Course (cs ++ ds) l'' := by
  induction h with
  | nil h => exact .after h h'
  | cons h hc _ ih => exact .cons h hc (ih h')

theorem tail (h : l.Course cs l') (h' : l'.Rearranged l'') : l.Course cs l'' := by
  have := h.append (.nil h')
  rwa [List.append_nil] at this

theorem snoc (h : l.Course cs l') (h' : l'.ChangeStep c l'') : l.Course (cs ++ [c]) l'' :=
  h.append (.single h')

theorem rearranged (h : l.Course [] l') : l.Rearranged l' := by
  cases h with
  | nil h => exact h

theorem preserves {P : Layout → Prop} (h : l.Course cs l') (hl : P l)
    (hidden : ∀ {a b : Layout}, a.Hidden b → P a → P b)
    (does : ∀ {a b : Layout} {c : Change}, c ∈ cs → a.ChangeStep c b → P a → P b) : P l' := by
  induction h with
  | nil h => exact h.preserves hl hidden
  | cons h hc _ ih =>
      exact ih (does (by simp) hc (h.preserves hl hidden))
        fun hmem => does (List.mem_cons_of_mem _ hmem)

end Course

theorem config_of_step (hm : l.ChangeStep c l') : l'.config = l.config := by
  cases hm <;> rfl

theorem config_of_course (hm : l.Course cs l') : l'.config = l.config := by
  apply hm.preserves (P := fun k => k.config = l.config) rfl
  · exact fun h hc => (config_of_hidden h).trans hc
  · exact fun _ h hc => (config_of_step h).trans hc

theorem capacity_of_step (hm : l.ChangeStep c l') : l'.capacity = l.capacity := by
  cases hm <;> rfl

theorem capacity_of_course (hm : l.Course cs l') : l'.capacity = l.capacity := by
  apply hm.preserves (P := fun k => k.capacity = l.capacity) rfl
  · exact fun h hc => (capacity_of_hidden h).trans hc
  · exact fun _ h hc => (capacity_of_step h).trans hc

namespace Sound

variable {page : Page}

theorem destroy (h : l.Sound) (hid : l.home? id = some f) (hs : l.slot? id = none) :
    Sound { l.forget id with frames := l.frames.unbind f } :=
  h.vacate none hid rfl (by simp) l.bitmap h.bitmap rfl (h.slots.keep hs)

theorem forget (h : l.Sound) (hid : l.home? id = none) (bitmap : Swap.Bitmap) (hb : bitmap.Exact)
    (hslots : bitmap.slots = l.bitmap.slots)
    (hheld : SlotsHeld bitmap (Function.update l.slot? id none)) :
    Sound { l.forget id with bitmap := bitmap } := by
  have hr := h.repage id none hid.symm (by simp) (by simp) bitmap hb hslots hheld
  exact hr.withEntry (hr.entries_unmap id)

theorem of_step (h : l.Sound) (hm : l.ChangeStep c l') : l'.Sound := by
  cases hm with
  | register id page hpage hl hh =>
      have hf : page.frame? = none := hh.coherent.frame?_of_unloaded hl
      have hs : page.slot? = none := by
        cases hc : page.content <;> simp_all [Page.loaded, Page.slot?]
      exact h.rewrite id (some page) (by simp [home?, hpage, hf]) (by simp [slot?, hpage, hs])
        (by rintro _ ⟨⟩; exact hh) (by simp [hpage])
  | load id page loader span f p b hpage hn hc hf hb =>
      have hid : l.home? id = none := by simp [home?, hpage, hn]
      have hslot : l.slot? id = none := by simp [slot?, hpage, Page.slot?, hc]
      exact h.settle hid hf rfl (wellFormed_of_span _ (.frame ..) rfl) _ h.bitmap rfl
        (h.slots.keep hslot)
  | refresh id page f p hf =>
      obtain ⟨hpage, hid, hp⟩ := hf
      apply h.withEntry
      intro o e he
      by_cases ho : o = id
      · subst ho
        rw [Function.update_self] at he
        obtain rfl := Option.some.inj he
        refine ⟨page, f, hpage, hid, ?_, ?_⟩
        · rw [Entry.page_fresh (h.toNat_lt hp), hp]
        · rw [Entry.has_fresh]
      · rw [Function.update_of_ne ho] at he
        exact h.entries o e he
  | store id page f p i bs hf hw he =>
      have hv : Sound { l with
          entry := Function.update l.entry id
            ((l.entry id).map (fun e => e.set .dirty true)) } := by
        apply h.withEntry
        intro o e he
        by_cases ho : o = id
        · subst ho
          rw [Function.update_self] at he
          obtain ⟨e', he', rfl⟩ := Option.map_eq_some_iff.mp he
          exact (h.entries o e' he').set (by decide) _
        · rw [Function.update_of_ne ho] at he
          exact h.entries o e he
      exact hv.refill _ l.stored l.data l.runs l.lost
  | fill id page f p b hf hb => exact h.refill _ l.stored l.data l.runs l.lost
  | destroyIdle id page hpage hf hs =>
      exact h.forget (by simp [home?, hpage, hf]) l.bitmap h.bitmap rfl
        (h.slots.keep (by simp [slot?, hpage, hs]))
  | destroySlot id page s hpage hn hc =>
      have hslot : l.slot? id = some s := by simp [slot?, hpage, Page.slot?, hc]
      exact h.forget (by simp [home?, hpage, hn]) _
        (h.bitmap.unmark (h.test_slot hslot)) rfl (h.slots.give h.bitmap hslot)
  | destroyFrame id page f hpage hf hc =>
      exact h.destroy (by simp [home?, hpage, hf])
        (by simp [slot?, hpage, Page.slot?, hc])
  | destroyFile id page f p g span dirty hf hc =>
      have hv := h.destroy hf.home?_eq (by simp [slot?, hf.1, Page.slot?, hc])
      exact hv.refill l.bytes l.stored _ l.runs l.lost
  | destroyLost id page f p g span dirty k hf hc hd =>
      have hv := h.destroy hf.home?_eq (by simp [slot?, hf.1, Page.slot?, hc])
      exact hv.refill l.bytes l.stored _ l.runs _

theorem of_course (h : l.Sound) (hm : l.Course cs l') : l'.Sound :=
  hm.preserves h (fun hab ha => ha.of_hidden hab) fun _ hab ha => ha.of_step hab

end Sound

end Layout

end Pager
