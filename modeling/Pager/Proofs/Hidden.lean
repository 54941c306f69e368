import Pager.Proofs.Sound
import Mathlib.Logic.Relation

namespace Pager

def Page.segment? (p : Page) : Option Segment :=
  match p.content with
  | .unloaded .file loader _ => loader.bind Loader.backing?
  | .file g _ _ => some g
  | _ => none

theorem Page.kind_of_segment? {p : Page} {g : Segment} (h : p.segment? = some g) :
    p.kind = .file := by
  cases hc : p.content with
  | unloaded kind => cases kind <;> simp_all [Page.segment?, Page.kind]
  | anon => simp [Page.segment?, hc] at h
  | file => rw [Page.kind, hc]

namespace Layout

variable {l l' : Layout} {id : PageId} {p : PhysPage} {f : FrameId}

def hardDirty (l : Layout) (id : PageId) : Bool := (l.entry id).any (fun e => e.has .dirty)

def settle (l : Layout) (id : PageId) (page : Page) (f : FrameId) (p : PhysPage) (c : Content)
    (b : PageBytes) : Layout :=
  { l with
    page := Function.update l.page id (some { page with frame? := some f, content := c })
    entry := Function.update l.entry id (some (.fresh p page.writable))
    frames := l.frames.bind f id
    bytes := Function.update l.bytes p b }

def leave (l : Layout) (id : PageId) (page : Page) (f : FrameId) (c : Content) : Layout :=
  { l with
    page := Function.update l.page id (some { page with frame? := none, content := c })
    entry := Function.update l.entry id none
    frames := l.frames.unbind f }

def spill (l : Layout) (g : Segment) (p : PhysPage) (k : Nat) : FileId → Array UInt8 :=
  Function.update l.data g.file (g.spill (l.bytes p) k (l.data g.file))

/-- The moves that a program cannot see: pages go to the swap area, to their
files and back, and what stands between two such moves. -/
inductive Hidden (l : Layout) : Layout → Prop
  | sweep (entry : PageId → Option Entry) (hand : Nat)
      (hentry : ∀ id, entry id = l.entry id ∨
        entry id = (l.entry id).map (fun e => e.set .accessed false))
      (hhand : hand < max 1 l.frames.size) :
      Hidden l { l with entry := entry, frames := { l.frames with hand := hand } }
  | mark (id : PageId) :
      Hidden l { l with
        entry := Function.update l.entry id ((l.entry id).map (fun e => e.set .accessed true)) }
  | grow (p : PhysPage) (ps : List PhysPage) (hfree : l.free = p :: ps) :
      Hidden l { l with free := ps, frames := (l.frames.push { page := p, pinned := true }).2 }
  | pin (f : FrameId) : Hidden l { l with frames := l.frames.pin f }
  | unpin (f : FrameId) : Hidden l { l with frames := l.frames.unpin f }
  | rerun (runs : Nat → Nat) (hruns : ∀ k, l.runs k ≤ runs k) : Hidden l { l with runs := runs }
  | scribble (f : FrameId) (p : PhysPage) (b : PageBytes) (hf : l.Spare f p) :
      Hidden l { l with bytes := Function.update l.bytes p b }
  | saveAnon (id : PageId) (page : Page) (f : FrameId) (p : PhysPage) (s : Slot)
      (hpage : l.page id = some page) (hf : page.frame? = some f) (hc : page.content = .anon none)
      (hp : l.phys? f = some p) (hs : s.index < l.bitmap.slots)
      (ht : l.bitmap.test s.index = false) :
      Hidden l { l.leave id page f (.anon (some s)) with
        bitmap := l.bitmap.mark s.index, stored := Function.update l.stored s (l.bytes p) }
  | keepAnon (id : PageId) (page : Page) (f : FrameId) (stored : Slot → PageBytes)
      (hpage : l.page id = some page) (hf : page.frame? = some f) (hc : page.content = .anon none)
      (hs : ∀ s : Slot, l.bitmap.test s.index = true → stored s = l.stored s) :
      Hidden l { l with entry := Function.update l.entry id none, stored := stored }
  | saveFile (id : PageId) (page : Page) (f : FrameId) (p : PhysPage) (g : Segment) (span : Nat)
      (dirty : Bool) (hpage : l.page id = some page) (hf : page.frame? = some f)
      (hc : page.content = .file g span dirty) (hp : l.phys? f = some p) :
      Hidden l { l.leave id page f (.file g span false) with
        data := if dirty || l.hardDirty id then l.spill g p g.length else l.data }
  | keepFile (id : PageId) (page : Page) (f : FrameId) (p : PhysPage) (g : Segment) (span : Nat)
      (dirty : Bool) (k : Nat) (hpage : l.page id = some page) (hf : page.frame? = some f)
      (hc : page.content = .file g span dirty) (hp : l.phys? f = some p)
      (hd : (dirty || l.hardDirty id) = true) :
      Hidden l { l with
        page := Function.update l.page id (some { page with content := .file g span true })
        entry := Function.update l.entry id none
        data := l.spill g p k }
  | swapIn (id : PageId) (page : Page) (f : FrameId) (p : PhysPage) (s : Slot)
      (hpage : l.page id = some page) (hn : page.frame? = none)
      (hc : page.content = .anon (some s)) (hf : l.Spare f p) :
      Hidden l { l.settle id page f p (.anon none) (l.stored s) with
        bitmap := l.bitmap.unmark s.index }
  | readIn (id : PageId) (page : Page) (f : FrameId) (p : PhysPage) (g : Segment)
      (hpage : l.page id = some page) (hn : page.frame? = none) (hg : page.segment? = some g)
      (hfit : g.Fits (l.data g.file).size) (hf : l.Spare f p) :
      Hidden l (l.settle id page f p (.file g page.span false)
        (g.image (l.data g.file)))
  | remap (id : PageId) (page : Page) (f : FrameId) (p : PhysPage) (hpage : l.page id = some page)
      (hf : page.frame? = some f) (hp : l.phys? f = some p) (he : l.entry id = none) :
      Hidden l { l with
        entry := Function.update l.entry id (some (.fresh p page.writable)) }

/-- A sequence of moves that a program cannot see. -/
def Rearranged : Layout → Layout → Prop := Relation.ReflTransGen Hidden

theorem Rearranged.refl (l : Layout) : l.Rearranged l := Relation.ReflTransGen.refl

theorem Rearranged.trans {l'' : Layout} (h : l.Rearranged l') (h' : l'.Rearranged l'') :
    l.Rearranged l'' :=
  Relation.ReflTransGen.trans h h'

theorem Rearranged.tail {l'' : Layout} (h : l.Rearranged l') (h' : l'.Hidden l'') :
    l.Rearranged l'' :=
  Relation.ReflTransGen.tail h h'

theorem Rearranged.preserves {P : Layout → Prop} (h : l.Rearranged l') (hl : P l)
    (step : ∀ {a b : Layout}, a.Hidden b → P a → P b) : P l' := by
  induction h with
  | refl => exact hl
  | tail _ hm ih => exact step hm ih

theorem config_of_hidden (hm : l.Hidden l') : l'.config = l.config := by
  cases hm <;> rfl

theorem capacity_of_hidden (hm : l.Hidden l') : l'.capacity = l.capacity := by
  cases hm <;> rfl

theorem phys?_grow {q : PhysPage} (h : l.phys? f = some q) :
    (l.frames.push { page := p, pinned := true }).2.phys? f = some q := by
  rw [FrameTable.phys?_push, Function.update_of_ne]
  · exact h
  · rintro rfl
    have hnone : l.frames.get? ⟨l.frames.size⟩ = none := FrameTable.get?_eq_none_of_size_le le_rfl
    rw [phys?, FrameTable.phys?, hnone] at h
    cases h

theorem MapsTo.set {e : Entry} {k : Flag} (h : l.MapsTo id e) (hk : k ≠ .writable) (on : Bool) :
    l.MapsTo id (e.set k on) := by
  obtain ⟨page, f, hp, hf, hphys, hw⟩ := h
  refine ⟨page, f, hp, hf, ?_, ?_⟩
  · rw [Entry.page_set, hphys]
  · rw [Entry.has_set, if_neg hk, hw]

namespace Sound

variable {page : Page}

theorem withEntry (h : l.Sound) {entry : PageId → Option Entry}
    (he : ∀ id e, entry id = some e → l.MapsTo id e) : Sound { l with entry := entry } :=
  { h with entries := he }

theorem entries_unmap (h : l.Sound) (id : PageId) (o : PageId) (e : Entry)
    (he : Function.update l.entry id none o = some e) : l.MapsTo o e := by
  rw [Function.update_apply] at he
  split at he
  next => cases he
  next => exact h.entries o e he

theorem settle (h : l.Sound) {c : Content} {b : PageBytes} (hn : l.home? id = none)
    (hf : l.Spare f p) (hs : ({ page with frame? := some f, content := c } : Page).slot? = none)
    (hh : WellFormed id.page { page with frame? := some f, content := c }) (bitmap : Swap.Bitmap)
    (hb : bitmap.Exact) (hslots : bitmap.slots = l.bitmap.slots)
    (hheld : SlotsHeld bitmap (Function.update l.slot? id none)) :
    Sound { l.settle id page f p c b with bitmap := bitmap } where
  pages := wellFormed_update h.pages (by rintro _ ⟨⟩; exact hh)
  owners := by
    have hh := home?_update l id (some { page with frame? := some f, content := c })
    rw [Option.bind_some] at hh
    change Paired (l.frames.bind f id).owner? (fun k => (Function.update l.page id _ k).bind _)
    rw [hh, FrameTable.owner?_bind hf.1]
    exact h.owners.link hf.2 hn
  entries := by
    intro o e he
    change Function.update l.entry id _ o = some e at he
    by_cases hid : o = id
    · subst hid
      rw [Function.update_self] at he
      obtain rfl := Option.some.inj he
      refine ⟨{ page with frame? := some f, content := c }, f, Function.update_self .., rfl, ?_, ?_⟩
      · rw [Entry.page_fresh (h.toNat_lt hf.1)]
        exact (congrFun FrameTable.phys?_bind f).trans hf.1
      · rw [Entry.has_fresh]
    · rw [Function.update_of_ne hid] at he
      obtain ⟨q, k, hq, hk, hphys, hw⟩ := h.entries o e he
      exact ⟨q, k, (Function.update_of_ne hid ..).trans hq, hk,
        (congrFun FrameTable.phys?_bind k).trans hphys, hw⟩
  memory := by
    change ((l.frames.bind f id).physPages ++ l.free).Perm _
    rw [FrameTable.physPages_bind]
    exact h.memory
  capacity_le := h.capacity_le
  hand_lt := by
    change l.frames.hand < max 1 (l.frames.bind f id).size
    rw [FrameTable.size_bind]
    exact h.hand_lt
  bitmap := hb
  slots_lt := by
    change bitmap.slots * _ < _
    rw [hslots]
    exact h.slots_lt
  slots := by
    have hh := slot?_update l id (some { page with frame? := some f, content := c })
    rw [Option.bind_some, hs] at hh
    change SlotsHeld bitmap (fun k => (Function.update l.page id _ k).bind Page.slot?)
    rw [hh]
    exact hheld

theorem vacate (h : l.Sound) (o : Option Page) (hid : l.home? id = some f)
    (ho : o.bind Page.frame? = none) (hh : ∀ p, o = some p → WellFormed id.page p)
    (bitmap : Swap.Bitmap) (hb : bitmap.Exact) (hslots : bitmap.slots = l.bitmap.slots)
    (hheld : SlotsHeld bitmap (Function.update l.slot? id (o.bind Page.slot?))) :
    Sound { l with
      page := Function.update l.page id o
      entry := Function.update l.entry id none
      frames := l.frames.unbind f
      bitmap := bitmap } where
  pages := wellFormed_update h.pages hh
  owners := by
    have hh := home?_update l id o
    rw [ho] at hh
    change Paired (l.frames.unbind f).owner? (fun k => (Function.update l.page id o k).bind _)
    rw [hh, FrameTable.owner?_unbind]
    exact h.owners.unlink ((h.owners f id).mpr hid)
  entries := by
    intro k e he
    change Function.update l.entry id none k = some e at he
    by_cases hk : k = id
    · rw [hk, Function.update_self] at he
      cases he
    · rw [Function.update_of_ne hk] at he
      obtain ⟨q, j, hq, hj, hphys, hw⟩ := h.entries k e he
      exact ⟨q, j, (Function.update_of_ne hk ..).trans hq, hj,
        (congrFun FrameTable.phys?_unbind j).trans hphys, hw⟩
  memory := by
    change ((l.frames.unbind f).physPages ++ l.free).Perm _
    rw [FrameTable.physPages_unbind]
    exact h.memory
  capacity_le := h.capacity_le
  hand_lt := by
    change l.frames.hand < max 1 (l.frames.unbind f).size
    rw [FrameTable.size_unbind]
    exact h.hand_lt
  bitmap := hb
  slots_lt := by
    change bitmap.slots * _ < _
    rw [hslots]
    exact h.slots_lt
  slots := by
    change SlotsHeld bitmap (fun k => (Function.update l.page id o k).bind Page.slot?)
    rw [slot?_update l id o]
    exact hheld

theorem repage (h : l.Sound) (id : PageId) (o : Option Page) (hf : o.bind Page.frame? = l.home? id)
    (hh : ∀ p, o = some p → WellFormed id.page p)
    (hw : ∀ p q, o = some p → l.page id = some q → q.writable = p.writable) (bitmap : Swap.Bitmap)
    (hb : bitmap.Exact) (hslots : bitmap.slots = l.bitmap.slots)
    (hheld : SlotsHeld bitmap (Function.update l.slot? id (o.bind Page.slot?))) :
    Sound { l with page := Function.update l.page id o, bitmap := bitmap } := by
  have hhome : (fun k => (Function.update l.page id o k).bind Page.frame?) = l.home? := by
    rw [home?_update, hf]
    exact Function.update_eq_self id l.home?
  refine { h with
    pages := wellFormed_update h.pages hh, owners := ?_, entries := ?_, bitmap := hb,
    slots_lt := ?_, slots := ?_ }
  · change Paired l.owner? (fun k => (Function.update l.page id o k).bind Page.frame?)
    rw [hhome]
    exact h.owners
  · intro k e he
    obtain ⟨q, j, hq, hj, hphys, hqw⟩ := h.entries k e he
    by_cases hk : k = id
    · subst hk
      have hj' : o.bind Page.frame? = some j := by rw [hf, home?, hq, Option.bind_some, hj]
      obtain ⟨p, rfl, hp⟩ := Option.bind_eq_some_iff.mp hj'
      exact ⟨p, j, Function.update_self .., hp, hphys, hqw.trans (hw p q rfl hq)⟩
    · exact ⟨q, j, (Function.update_of_ne hk ..).trans hq, hj, hphys, hqw⟩
  · change bitmap.slots * _ < _
    rw [hslots]
    exact h.slots_lt
  · change SlotsHeld bitmap (fun k => (Function.update l.page id o k).bind Page.slot?)
    rw [slot?_update]
    exact hheld

theorem rewrite (h : l.Sound) (id : PageId) (o : Option Page) (hf : o.bind Page.frame? = l.home? id)
    (hs : o.bind Page.slot? = l.slot? id) (hh : ∀ p, o = some p → WellFormed id.page p)
    (hw : ∀ p q, o = some p → l.page id = some q → q.writable = p.writable) :
    Sound { l with page := Function.update l.page id o } :=
  h.repage id o hf hh hw l.bitmap h.bitmap rfl (h.slots.keep hs.symm)

theorem refill (h : l.Sound) (bytes : PhysPage → PageBytes) (stored : Slot → PageBytes)
    (data : FileId → Array UInt8) (runs : Nat → Nat) (lost : Nat) :
    Sound { l with bytes := bytes, stored := stored, data := data, runs := runs, lost := lost } :=
  { h with }

theorem withFrames (h : l.Sound) {t : FrameTable} (ho : t.owner? = l.owner?)
    (hp : t.phys? = l.phys?) (hm : t.physPages = l.frames.physPages)
    (hh : t.hand < max 1 t.size) : Sound { l with frames := t } := by
  refine { h with owners := ?_, entries := ?_, memory := ?_, hand_lt := hh }
  · change Paired t.owner? l.home?
    rw [ho]
    exact h.owners
  · intro o e he
    obtain ⟨q, k, hq, hk, hphys, hw⟩ := h.entries o e he
    exact ⟨q, k, hq, hk, (congrFun hp k).trans hphys, hw⟩
  · rw [hm]
    exact h.memory

theorem grow (h : l.Sound) {ps : List PhysPage} (hfree : l.free = p :: ps) :
    Sound { l with
      free := ps
      frames := (l.frames.push { page := p, pinned := true }).2 } := by
  refine { h with owners := ?_, entries := ?_, memory := ?_, hand_lt := ?_ }
  · change Paired (l.frames.push { page := p, pinned := true }).2.owner? l.home?
    rw [FrameTable.owner?_push]
    exact h.owners
  · intro o e he
    obtain ⟨q, k, hq, hk, hphys, hw⟩ := h.entries o e he
    exact ⟨q, k, hq, hk, phys?_grow hphys, hw⟩
  · change ((l.frames.push { page := p, pinned := true }).2.physPages ++ ps).Perm _
    rw [FrameTable.physPages_push, List.append_assoc, List.singleton_append, ← hfree]
    exact h.memory
  · have := h.hand_lt
    change l.frames.hand < max 1 (l.frames.frames.push _).size
    rw [Array.size_push]
    change l.frames.hand < max 1 l.frames.frames.size at this
    omega

theorem of_hidden (h : l.Sound) (hm : l.Hidden l') : l'.Sound := by
  cases hm with
  | sweep entry hand hentry hhand =>
      have hv : Sound { l with entry := entry } := by
        apply h.withEntry
        intro id e he
        rcases hentry id with hs | hs
        · exact h.entries id e (hs ▸ he)
        · obtain ⟨e', he', rfl⟩ := Option.map_eq_some_iff.mp (hs.symm.trans he)
          exact (h.entries id e' he').set (by decide) _
      exact hv.withFrames (t := { l.frames with hand := hand }) rfl rfl rfl hhand
  | mark id =>
      apply h.withEntry
      intro o e he
      by_cases ho : o = id
      · subst ho
        rw [Function.update_self] at he
        obtain ⟨e', he', rfl⟩ := Option.map_eq_some_iff.mp he
        exact (h.entries o e' he').set (by decide) _
      · rw [Function.update_of_ne ho] at he
        exact h.entries o e he
  | grow p ps hfree => exact h.grow hfree
  | pin f =>
      exact h.withFrames FrameTable.owner?_pin FrameTable.phys?_pin FrameTable.physPages_pin
        (by rw [FrameTable.size_pin]; exact h.hand_lt)
  | unpin f =>
      exact h.withFrames FrameTable.owner?_unpin FrameTable.phys?_unpin FrameTable.physPages_unpin
        (by rw [FrameTable.size_unpin]; exact h.hand_lt)
  | rerun runs _ => exact h.refill ..
  | scribble f p b hf => exact h.refill ..
  | saveAnon id page f p s hpage hf hc hp hs ht =>
      have hid : l.home? id = some f := by simp [home?, hpage, hf]
      have hslot : l.slot? id = none := by simp [slot?, hpage, Page.slot?, hc]
      have hv := h.vacate (some { page with frame? := none, content := .anon (some s) }) hid rfl
        (by rintro _ ⟨⟩; exact wellFormed_of_span _ (.slot ..) rfl) _ (h.bitmap.mark hs ht) rfl
        (h.slots.take h.bitmap hs ht hslot)
      exact hv.refill l.bytes _ l.data l.runs l.lost
  | keepAnon id page f stored hpage hf hc hs =>
      have hv := h.withEntry (h.entries_unmap id)
      exact hv.refill l.bytes stored l.data l.runs l.lost
  | saveFile id page f p g span dirty hpage hf hc hp =>
      have hid : l.home? id = some f := by simp [home?, hpage, hf]
      have hslot : l.slot? id = none := by simp [slot?, hpage, Page.slot?, hc]
      have hh : WellFormed id.page { page with frame? := none, content := .file g span false } :=
        (h.pages id page hpage).congr (.idle ..) (by simp [Page.kind, hc]) (by simp [Page.span, hc])
      have hv := h.vacate (some { page with frame? := none, content := .file g span false }) hid rfl
        (by rintro _ ⟨⟩; exact hh) _ h.bitmap rfl (h.slots.keep hslot)
      exact hv.refill l.bytes l.stored _ l.runs l.lost
  | keepFile id page f p g span dirty k hpage hf hc hp hd =>
      have hh : WellFormed id.page { page with content := .file g span true } :=
        (h.pages id page hpage).congr (.marked hf) (by simp [Page.kind, hc])
          (by simp [Page.span, hc])
      have hv := h.rewrite id (some { page with content := .file g span true })
        (by simp [home?, hpage]) (by simp [slot?, hpage, Page.slot?, hc])
        (by rintro _ ⟨⟩; exact hh) (by simp [hpage])
      have hu := hv.withEntry (hv.entries_unmap id)
      exact hu.refill l.bytes l.stored _ l.runs l.lost
  | swapIn id page f p s hpage hn hc hf =>
      have hid : l.home? id = none := by simp [home?, hpage, hn]
      have hslot : l.slot? id = some s := by simp [slot?, hpage, Page.slot?, hc]
      exact h.settle hid hf rfl (wellFormed_of_span _ (.frame ..) rfl) _
        (h.bitmap.unmark (h.test_slot hslot)) rfl (h.slots.give h.bitmap hslot)
  | readIn id page f p g hpage hn hg hfit hf =>
      have hid : l.home? id = none := by simp [home?, hpage, hn]
      have hslot : l.slot? id = none := by
        rw [slot?, hpage, Option.bind_some]
        cases hc : page.content <;> simp_all [Page.segment?, Page.slot?]
      have hh : WellFormed id.page
          { page with frame? := some f, content := .file g page.span false } :=
        (h.pages id page hpage).congr (.file ..) (Page.kind_of_segment? hg).symm rfl
      exact h.settle hid hf rfl hh _ h.bitmap rfl (h.slots.keep hslot)
  | remap id page f p hpage hf hp he =>
      apply h.withEntry
      intro o e he
      by_cases ho : o = id
      · subst ho
        rw [Function.update_self] at he
        obtain rfl := Option.some.inj he
        refine ⟨page, f, hpage, hf, ?_, ?_⟩
        · rw [Entry.page_fresh (h.toNat_lt hp), hp]
        · rw [Entry.has_fresh]
      · rw [Function.update_of_ne ho] at he
        exact h.entries o e he

theorem of_rearranged (h : l.Sound) (hm : l.Rearranged l') : l'.Sound :=
  hm.preserves h fun hab ha => ha.of_hidden hab

end Sound

end Layout

end Pager
