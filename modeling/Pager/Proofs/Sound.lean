import Pager.Proofs.Layout

namespace Pager

/-- A page that is not loaded is in no frame, private memory is in a frame or in a
slot and never in both, and a page that is in no frame has no changes that its
file lacks. -/
inductive Page.Coherent : Page → Prop
  | unloaded (writable : Bool) (kind : Kind) (loader : Option Loader) (span : Nat) :
      Coherent (.unloaded writable kind loader span)
  | slot (writable : Bool) (s : Slot) :
      Coherent { writable := writable, content := .anon (some s) }
  | frame (writable : Bool) (f : FrameId) :
      Coherent { writable := writable, frame? := some f, content := .anon none }
  | file (writable : Bool) (f : FrameId) (g : Segment) (span : Nat) (dirty : Bool) :
      Coherent { writable := writable, frame? := some f, content := .file g span dirty }
  | idle (writable : Bool) (g : Segment) (span : Nat) :
      Coherent { writable := writable, content := .file g span false }

namespace Page.Coherent

variable {page : Page}

theorem frame?_of_unloaded (h : page.Coherent) (hl : page.loaded = false) :
    page.frame? = none := by
  cases h <;> first | rfl | cases hl

theorem slot?_of_frame (h : page.Coherent) {f : FrameId} (hf : page.frame? = some f) :
    page.slot? = none := by
  cases h <;> first | rfl | cases hf

theorem ne_unloaded (h : page.Coherent) {f : FrameId} (hf : page.frame? = some f) {kind : Kind}
    {loader : Option Loader} {span : Nat} : page.content ≠ .unloaded kind loader span := by
  rintro hc
  cases h <;> cases hc
  cases hf

theorem eq_unloaded (h : page.Coherent) {kind : Kind} {loader : Option Loader} {span : Nat}
    (hc : page.content = .unloaded kind loader span) :
    page = .unloaded page.writable kind loader span := by
  cases h <;> cases hc
  rfl

theorem slot_of_frame (h : page.Coherent) {f : FrameId} {slot : Option Slot}
    (hf : page.frame? = some f) (hc : page.content = .anon slot) : slot = none := by
  cases h <;> cases hc <;> first | rfl | cases hf

theorem slot_of_idle (h : page.Coherent) {slot : Option Slot} (hf : page.frame? = none)
    (hc : page.content = .anon slot) : ∃ s, slot = some s := by
  cases h <;> cases hc <;> first | exact ⟨_, rfl⟩ | cases hf

theorem clean_of_idle (h : page.Coherent) {g : Segment} {span : Nat} {dirty : Bool}
    (hf : page.frame? = none) (hc : page.content = .file g span dirty) : dirty = false := by
  cases h <;> cases hc <;> first | rfl | cases hf

theorem loaded_of_frame (h : page.Coherent) {f : FrameId} (hf : page.frame? = some f) :
    page.loaded = true := by
  cases h <;> first | rfl | cases hf

theorem marked {f : FrameId} {g : Segment} {span : Nat} (hf : page.frame? = some f) :
    Coherent { page with content := .file g span true } := by
  rw [hf]
  exact .file ..

end Page.Coherent

def Paired {α β : Type} (o : α → Option β) (h : β → Option α) : Prop :=
  ∀ a b, o a = some b ↔ h b = some a

namespace Paired

variable {α β : Type} [DecidableEq α] [DecidableEq β] {o : α → Option β} {h : β → Option α}
  {a : α} {b : β}

theorem link (hp : Paired o h) (ha : o a = none) (hb : h b = none) :
    Paired (Function.update o a (some b)) (Function.update h b (some a)) := by
  intro x y
  rw [Function.update_apply, Function.update_apply]
  by_cases hx : x = a <;> by_cases hy : y = b
  · simp [hx, hy]
  · subst hx
    have : h y ≠ some x := fun hc => by simp [(hp x y).mpr hc] at ha
    simp [hy, Ne.symm hy, this]
  · subst hy
    have : o x ≠ some y := fun hc => by simp [(hp x y).mp hc] at hb
    simp [hx, Ne.symm hx, this]
  · rw [if_neg hx, if_neg hy]
    exact hp x y

theorem unlink (hp : Paired o h) (ha : o a = some b) :
    Paired (Function.update o a none) (Function.update h b none) := by
  intro x y
  rw [Function.update_apply, Function.update_apply]
  by_cases hx : x = a <;> by_cases hy : y = b
  · simp [hx, hy]
  · have : h y ≠ some a := fun hc => hy (Option.some.inj (((hp a y).mpr hc).symm.trans ha))
    simp [hx, hy, this]
  · have : o x ≠ some b := fun hc =>
      hx (Option.some.inj (((hp x b).mp hc).symm.trans ((hp a b).mp ha)))
    simp [hx, hy, this]
  · rw [if_neg hx, if_neg hy]
    exact hp x y

end Paired

namespace Layout

variable {l : Layout} {id : PageId} {p : PhysPage} {f : FrameId} {e : Entry}

def MapsTo (l : Layout) (id : PageId) (e : Entry) : Prop :=
  ∃ page f, l.page id = some page ∧ page.frame? = some f ∧ l.phys? f = some e.page ∧
    e.has .writable = page.writable

structure SlotsHeld (bitmap : Swap.Bitmap) (slot? : PageId → Option Slot) : Prop where
  used_iff : ∀ s : Slot, bitmap.test s.index = true ↔ ∃ id, slot? id = some s
  inj : ∀ id id' s, slot? id = some s → slot? id' = some s → id = id'

/-- Only a page of a file heads a mapping, and all pages of the mapping have a
number. -/
structure WellFormed (v : VirtPage) (page : Page) : Prop where
  coherent : page.Coherent
  anon : page.kind = .anon → page.span = 0
  le : v.toNat + page.span ≤ wordBound

theorem wellFormed_of_span (v : VirtPage) {page : Page} (hc : page.Coherent) (h : page.span = 0) :
    WellFormed v page where
  coherent := hc
  anon _ := h
  le := by
    rw [h]
    exact v.val.toNat_lt.le

theorem WellFormed.congr {v : VirtPage} {p q : Page} (h : WellFormed v p) (hq : q.Coherent)
    (hk : q.kind = p.kind) (hs : q.span = p.span) : WellFormed v q := by
  refine ⟨hq, fun hq => ?_, ?_⟩
  · rw [hs]
    exact h.anon (hk.symm.trans hq)
  · rw [hs]
    exact h.le

theorem wellFormed_unloaded (v : VirtPage) (writable : Bool) (kind : Kind)
    (loader : Option Loader) : WellFormed v (.unloaded writable kind loader 0) :=
  wellFormed_of_span v (.unloaded ..) rfl

theorem WellFormed.unload {v : VirtPage} {page : Page} {g : Segment} {span : Nat} {dirty : Bool}
    (h : WellFormed v page) (hc : page.content = .file g span dirty) (loader : Option Loader) :
    WellFormed v (.unloaded page.writable .file loader span) :=
  h.congr (.unloaded ..) (by rw [Page.kind, Page.kind, hc]) (by rw [Page.span, Page.span, hc])

/-- What holds between any two of the system's moves. -/
structure Sound (l : Layout) : Prop where
  pages : ∀ id page, l.page id = some page → WellFormed id.page page
  owners : Paired l.owner? l.home?
  entries : ∀ id e, l.entry id = some e → l.MapsTo id e
  memory : (l.frames.physPages ++ l.free).Perm (Ram.all l.capacity)
  capacity_le : Ram.firstPage + l.capacity ≤ Entry.pageBound
  hand_lt : l.frames.hand < max 1 l.frames.size
  bitmap : l.bitmap.Exact
  slots_lt : l.bitmap.slots * sectorsPerPage < wordBound
  slots : SlotsHeld l.bitmap l.slot?

theorem wellFormed_update (h : ∀ id page, l.page id = some page → WellFormed id.page page)
    {o : Option Page} (ho : ∀ p, o = some p → WellFormed id.page p) (k : PageId) (page : Page)
    (hk : Function.update l.page id o k = some page) : WellFormed k.page page := by
  rw [Function.update_apply] at hk
  split at hk
  next hid =>
    rw [hid]
    exact ho page hk
  next => exact h k page hk

theorem home?_update (l : Layout) (id : PageId) (o : Option Page) :
    (fun k => (Function.update l.page id o k).bind Page.frame?) =
      Function.update l.home? id (o.bind Page.frame?) := by
  funext k
  rw [Function.update_apply, Function.update_apply]
  split <;> rfl

theorem slot?_update (l : Layout) (id : PageId) (o : Option Page) :
    (fun k => (Function.update l.page id o k).bind Page.slot?) =
      Function.update l.slot? id (o.bind Page.slot?) := by
  funext k
  rw [Function.update_apply, Function.update_apply]
  split <;> rfl

namespace SlotsHeld

variable {b : Swap.Bitmap} {h : PageId → Option Slot} {s : Slot}

theorem keep (hs : SlotsHeld b h) {o : Option Slot} (hid : h id = o) :
    SlotsHeld b (Function.update h id o) := by
  rw [← hid, Function.update_eq_self]
  exact hs

theorem take (hb : b.Exact) (hs : SlotsHeld b h) (hi : s.index < b.slots)
    (ht : b.test s.index = false) (hn : h id = none) :
    SlotsHeld (b.mark s.index) (Function.update h id (some s)) := by
  have hfree (k : PageId) : h k ≠ some s := fun hk => by
    simp [(hs.used_iff s).mpr ⟨k, hk⟩] at ht
  refine ⟨fun t => ?_, fun i j t hi hj => ?_⟩
  · rw [Swap.Bitmap.test_mark hb.wellFormed hi, Bool.or_eq_true, decide_eq_true_iff, hs.used_iff]
    constructor
    · rintro (he | ⟨k, hk⟩)
      · exact ⟨id, by rw [Function.update_self, show s = t by cases s; cases t; simp_all]⟩
      · refine ⟨k, ?_⟩
        rw [Function.update_of_ne, hk]
        rintro rfl
        simp [hn] at hk
    · intro h
      obtain ⟨k, hk⟩ := h
      rw [Function.update_apply] at hk
      split at hk
      · exact .inl (congrArg Slot.index (Option.some.inj hk))
      · exact .inr ⟨k, hk⟩
  · rw [Function.update_apply] at hi hj
    split at hi <;> split at hj
    next hi' hj' => exact hi'.trans hj'.symm
    next => exact absurd (Option.some.inj hi ▸ hj) (hfree j)
    next => exact absurd (Option.some.inj hj ▸ hi) (hfree i)
    next => exact hs.inj i j t hi hj

theorem give (hb : b.Exact) (hs : SlotsHeld b h) (hid : h id = some s) :
    SlotsHeld (b.unmark s.index) (Function.update h id none) := by
  refine ⟨fun t => ?_, fun i j t hi hj => ?_⟩
  · rw [Swap.Bitmap.test_unmark hb.wellFormed, Bool.and_eq_true, Bool.not_eq_true',
      decide_eq_false_iff_not, hs.used_iff]
    constructor
    · intro h
      obtain ⟨hne, k, hk⟩ := h
      refine ⟨k, ?_⟩
      rw [Function.update_of_ne, hk]
      rintro rfl
      exact hne (congrArg Slot.index (Option.some.inj (hid.symm.trans hk)))
    · intro h
      obtain ⟨k, hk⟩ := h
      rw [Function.update_apply] at hk
      split at hk
      next => cases hk
      next hne =>
        refine ⟨fun he => hne (hs.inj k id s ?_ hid), k, hk⟩
        rw [hk]
        cases s
        cases t
        simp_all
  · rw [Function.update_apply] at hi hj
    split at hi <;> split at hj
    next => cases hi
    next => cases hi
    next => cases hj
    next => exact hs.inj i j t hi hj

end SlotsHeld

namespace Sound

theorem nodup_pages (h : l.Sound) : (l.frames.physPages ++ l.free).Nodup := by
  refine h.memory.nodup_iff.mpr (Ram.nodup_all (le_trans h.capacity_le ?_))
  decide

theorem capacity_eq (h : l.Sound) : l.capacity = l.frames.size + l.free.length := by
  have := h.memory.length_eq
  simp only [List.length_append, FrameTable.physPages, Ram.all, List.length_map,
    List.length_range, Array.length_toList] at this
  exact this.symm

theorem phys?_inj (h : l.Sound) {g : FrameId} (hf : l.phys? f = some p) (hg : l.phys? g = some p) :
    f = g :=
  FrameTable.phys?_inj (List.Nodup.of_append_left h.nodup_pages) hf hg

theorem inRange (h : l.Sound) (hf : l.phys? f = some p) : Ram.InRange l.capacity p := by
  refine Ram.inRange_of_mem_all (le_trans h.capacity_le (by decide)) (h.memory.mem_iff.mp ?_)
  exact List.mem_append_left _ (FrameTable.mem_physPages.mpr ⟨f, hf⟩)

theorem toNat_lt (h : l.Sound) (hf : l.phys? f = some p) : p.toNat < Entry.pageBound :=
  lt_of_lt_of_le (h.inRange hf).2 h.capacity_le

theorem exists_phys? (h : l.Sound) (hid : l.home? id = some f) : ∃ p, l.phys? f = some p :=
  FrameTable.exists_phys?_of_owner? ((h.owners f id).mpr hid)

theorem coherent (h : l.Sound) {page : Page} (hpage : l.page id = some page) : page.Coherent :=
  (h.pages id page hpage).coherent

theorem entry_eq_none (h : l.Sound) (hid : l.home? id = none) : l.entry id = none := by
  by_contra hne
  obtain ⟨e, he⟩ := Option.ne_none_iff_exists'.mp hne
  obtain ⟨page, f, hp, hf, -⟩ := h.entries id e he
  simp [home?, hp, hf] at hid

theorem addressable (h : l.Sound) {s : Slot} (hs : s.index < l.bitmap.slots) :
    Swap.Addressable s :=
  lt_of_le_of_lt (Nat.mul_le_mul_right _ hs.le) h.slots_lt

theorem test_slot (h : l.Sound) {s : Slot} (hs : l.slot? id = some s) :
    l.bitmap.test s.index = true :=
  (h.slots.used_iff s).mpr ⟨id, hs⟩

end Sound

end Layout

end Pager
