import Pager.Proofs.Clearing
import Pager.Proofs.Rollback

namespace Pager

open Step

theorem Store.set_get_self {α : Type} [Inhabited α] {s : Store α} {i : Nat}
    (h : i ∈ s.entries) : s.set i (s.get i) = s := by
  obtain ⟨entries⟩ := s
  rw [Store.set, mk.injEq]
  refine Std.ExtTreeMap.ext_getElem? fun {j} => ?_
  rw [Std.ExtTreeMap.getElem?_insert]
  split
  next hj =>
    obtain rfl : i = j := by simpa using hj
    simp only [Store.get, Std.ExtTreeMap.getElem?_eq_some_getElem h, Option.getD_some]
  next => rfl

theorem PageMap.eq_empty {m : PageMap} (h : ∀ v, m.get? v = none) : m = {} := by
  obtain ⟨entries⟩ := m
  rw [mk.injEq]
  refine Std.ExtTreeMap.ext_getElem? fun {v} => ?_
  rw [Std.ExtTreeMap.getElem?_empty]
  exact h v

theorem PageTable.eq_empty {t : PageTable} (h : ∀ v, t.get? v = none) : t = {} := by
  obtain ⟨entries⟩ := t
  rw [mk.injEq]
  refine Std.ExtTreeMap.ext_getElem? fun {v} => ?_
  rw [Std.ExtTreeMap.getElem?_empty]
  exact h v

namespace Machine

variable {m t u : Machine} {s : SpaceId} {id : PageId} {vs order : List VirtPage}

def Made (m : Machine) (s : SpaceId) : Prop := s ∈ m.spaces.entries

/-- All is as before but the pages and the mappings of a space, the owners of
frames, which slots are in use, the files and what is reported. -/
structure Confined (m : Machine) (s : SpaceId) (t : Machine) : Prop where
  config : t.config = m.config
  ram : t.ram = m.ram
  disk : t.swap.disk = m.swap.disk
  runs : t.runs = m.runs
  others : ∀ k, k ≠ s → t.space k = m.space k
  refusals : (t.space s).refusals = (m.space s).refusals
  made : m.Made s → t.Made s

namespace Confined

theorem of_spaces (hc : t.config = m.config) (hr : t.ram = m.ram)
    (hd : t.swap.disk = m.swap.disk) (hn : t.runs = m.runs) (hs : t.spaces = m.spaces) :
    m.Confined s t where
  config := hc
  ram := hr
  disk := hd
  runs := hn
  others k _ := by rw [space, hs, space]
  refusals := by rw [space, hs, space]
  made hm := by rwa [Made, hs]

theorem refl (m : Machine) (s : SpaceId) : m.Confined s m := .of_spaces rfl rfl rfl rfl rfl

theorem trans (h : m.Confined s t) (h' : t.Confined s u) : m.Confined s u where
  config := h'.config.trans h.config
  ram := h'.ram.trans h.ram
  disk := h'.disk.trans h.disk
  runs := h'.runs.trans h.runs
  others k hk := (h'.others k hk).trans (h.others k hk)
  refusals := h'.refusals.trans h.refusals
  made hm := h'.made (h.made hm)

theorem of_space {x : Space} (hx : x.refusals = (m.space s).refusals) :
    m.Confined s (m.setSpace s x) where
  config := rfl
  ram := rfl
  disk := rfl
  runs := rfl
  others k hk := by rw [space_setSpace, if_neg (Ne.symm hk)]
  refusals := by rw [space_setSpace, if_pos rfl, hx]
  made _ := Std.ExtTreeMap.mem_insert.mpr (.inl (by simp))

end Confined

theorem freeSlot_confined (k : Slot) :
    Ends (freeSlot k) m (fun _ t => m.Confined s t) (fun _ _ => True) := by
  rw [freeSlot, onSwap, ends_zoom]
  have hdisk : Ends (Swap.free k) m.swap (fun _ w => w.disk = m.swap.disk) (fun _ _ => True) := by
    simp only [Swap.free, ends_bind, ends_get, ends_demand, ends_set, implies_true, and_true]
  exact hdisk.mono (fun _ w hw => .of_spaces rfl rfl hw rfl rfl)
    fun _ _ h => h

theorem writeBack_confined (g : Segment) (dirty : Bool) (b : PageBytes) :
    Ends (writeBack id g dirty b) m (fun _ t => m.Confined id.space t)
      (fun _ t => m.Confined id.space t) := by
  have hunmap : m.Confined id.space (m.unmapPage id) := .of_space rfl
  simp only [writeBack, ends_bind, ends_get, ends_modify]
  split
  next =>
    rw [ends_bind, ends_note, ends_onFile]
    have hfile (d : File) :
        m.Confined id.space (((m.unmapPage id).emit (.writingBack id.page g.offset)).withFile
          g.file d) :=
      hunmap.trans (.of_spaces rfl rfl rfl rfl rfl)
    exact (ends_self _ _).mono (fun _ d _ => hfile d) fun _ d _ => hfile d
  next => exact hunmap

theorem giveUp_confined (c : Content) (b : Option PageBytes) :
    Ends (giveUp id c b) m (fun _ t => m.Confined id.space t) (fun _ _ => True) := by
  cases c with
  | unloaded => exact .refl m _
  | anon slot =>
      have hfree : Ends (slot.forM freeSlot) m (fun _ t => m.Confined id.space t)
          (fun _ _ => True) := by
        cases slot with
        | none => exact .refl m _
        | some k => exact freeSlot_confined k
      simp only [giveUp, ends_bind]
      refine hfree.mono (fun _ t ht => ?_) fun _ _ h => h
      have hunmap : t.Confined id.space (t.unmapPage id) := .of_space rfl
      split
      · exact ht.trans hunmap
      · exact ht
  | file g span dirty =>
      cases b with
      | none => exact .refl m _
      | some b =>
          simp only [giveUp, ends_handle]
          refine (writeBack_confined g dirty b).mono (fun _ _ h => h) ?_
          rintro (e | q) t h
          · have hnote : t.Confined id.space (t.emit (.writeBackLost id.page e)) :=
              .of_spaces rfl rfl rfl rfl rfl
            exact h.trans hnote
          · trivial

theorem destroy_confined (id : PageId) (page : Page) :
    Ends (destroy id page) m (fun _ t => m.Confined id.space t) (fun _ _ => True) := by
  cases hf : page.frame? with
  | none =>
      simp only [destroy, hf]
      exact giveUp_confined page.content none
  | some f =>
      simp only [destroy, hf, frame, ends_bind, ends_get, ends_ofOption, implies_true, and_true]
      intro fr _
      refine (readFrame_same fr.page).mono ?_ fun _ _ h => h
      rintro b _ rfl
      refine (giveUp_confined page.content (some b)).mono (fun _ t ht => ?_) fun _ _ h => h
      exact ht.trans (.of_spaces rfl rfl rfl rfl rfl)

theorem removeAll_confined (vs : List VirtPage) :
    Ends (removeAll s vs) m (fun _ t => m.Confined s t) (fun _ _ => True) := by
  induction vs generalizing m with
  | nil => exact .refl m s
  | cons v vs ih =>
      simp only [removeAll, removePage, ends_bind, ends_discard, ends_get]
      cases hpage : m.page? ⟨s, v⟩ with
      | none => exact ih
      | some page =>
          simp only [ends_bind, ends_modify, ends_pure]
          refine (destroy_confined ⟨s, v⟩ page).mono ?_ fun _ _ h => h
          intro _ t ht
          have hm : m.Confined s (m.erasePage ⟨s, v⟩) := .of_space rfl
          exact ih.mono (fun _ u hu => (hm.trans ht).trans hu) fun _ _ h => h

def named (s : SpaceId) (vs : List VirtPage) (id : PageId) : Bool :=
  id.space == s && decide (id.page ∈ vs)

theorem removePage_clears (hs : m.layout.Sound) (hu : m.layout.Unpinned) (hf : m.layout.Fitting) :
    Ends (removePage id) m
      (fun _ t => m.layout.Clears (fun o => o == id) t.layout ∧
        m.layout.Drains (fun o => o == id) t.layout ∧
        t.layout.Sound ∧ t.layout.Unpinned ∧ t.layout.Fitting) (fun _ _ => False) := by
  simp only [removePage, ends_bind, ends_get]
  cases hpage : m.page? id with
  | none =>
      have hnone (o : PageId) (ho : (o == id) = true) : m.layout.page o = none := by
        rw [beq_iff_eq.mp ho]
        exact hpage
      have hclean (o : PageId) (ho : (o == id) = true) : m.layout.pending? o = none :=
        Layout.pending?_idle (Layout.hold?_idle (by
          rw [Layout.home?, hnone o ho, Option.bind_none]))
      exact ⟨.of_vacant hs hnone, .of_clean hclean, hs, hu, hf⟩
  | some page =>
      simp only [ends_bind, ends_modify, ends_pure]
      refine (destroy_ends hs hu hpage).mono ?_ fun _ _ h => h
      intro _ t h
      obtain ⟨hd, hut, -⟩ := h
      exact ⟨.of_step hs hd, .of_step hs hf hd, hs.of_step hd, hut, hf.of_step hd⟩

theorem removeAll_clears (hs : m.layout.Sound) (hu : m.layout.Unpinned) (hf : m.layout.Fitting)
    (vs : List VirtPage) :
    Ends (removeAll s vs) m
      (fun _ t => m.layout.Clears (named s vs) t.layout ∧ m.layout.Drains (named s vs) t.layout)
      (fun _ _ => False) := by
  induction vs generalizing m with
  | nil => exact ⟨.of_vacant hs (by simp [named]), .of_clean (by simp [named])⟩
  | cons v vs ih =>
      have hcons : (fun id => (id == ⟨s, v⟩) || named s vs id) = named s (v :: vs) := by
        funext id
        obtain ⟨k, w⟩ := id
        rw [Bool.eq_iff_iff]
        simp only [named, Bool.or_eq_true, Bool.and_eq_true, beq_iff_eq, decide_eq_true_iff,
          PageId.mk.injEq, List.mem_cons]
        tauto
      simp only [removeAll, ends_bind, ends_discard]
      refine (removePage_clears hs hu hf).mono ?_ fun _ _ h => h
      intro _ t h
      obtain ⟨hc, hd, hst, hut, hft⟩ := h
      refine (ih hst hut hft).mono ?_ fun _ _ h => h
      intro _ t' h
      obtain ⟨hc', hd'⟩ := h
      rw [← hcons]
      exact ⟨hc.trans hc', hd.trans hd'⟩

theorem killInOrder_clears (hs : m.layout.Sound) (hu : m.layout.Unpinned) (hf : m.layout.Fitting)
    (ho : order.Perm (m.pages s).keys) :
    Ends (killInOrder s order) m
      (fun _ t => m.Confined s t ∧ m.layout.Clears (fun id => id.space == s) t.layout ∧
        m.layout.Drains (fun id => id.space == s) t.layout ∧ t.layout.Sound)
      (fun _ _ => False) := by
  have hall : Ends (killInOrder s order) m (fun _ t => m.Confined s t ∧
      m.layout.Clears (named s order) t.layout ∧ m.layout.Drains (named s order) t.layout)
      (fun _ _ => False) := by
    simp only [killInOrder, ends_bind, ends_get]
    refine ((removeAll_confined order).and (removeAll_clears hs hu hf order)).mono ?_
      fun _ _ h => h.2
    intro _ t h
    obtain ⟨hc, h⟩ := h
    split
    · rw [ends_note, layout_emit _ rfl]
      exact ⟨hc.trans (.of_spaces rfl rfl rfl rfl rfl), h⟩
    · exact ⟨hc, h⟩
  refine ((killInOrder_ends hs hu ho).and hall).mono ?_ fun _ _ h => h.1
  intro _ t h
  obtain ⟨⟨cs, -, hw, hpage⟩, hc, hclears, hdrains⟩ := h
  have hst := hs.of_course hw.course
  have hnamed (id : PageId) (h : named s order id = true) : (id.space == s) = true :=
    (Bool.and_eq_true_iff.mp h).1
  have hgone (id : PageId) (h : (id.space == s) = true) : t.layout.page id = none := by
    rw [hpage]
    exact if_pos (beq_iff_eq.mp h)
  refine ⟨hc, hclears.widen hst hnamed hgone, hdrains.widen hnamed fun id h => ?_, hst⟩
  exact Layout.pending?_idle (Layout.hold?_idle (by
    rw [Layout.home?, hgone id h, Option.bind_none]))

def DirtyApart (m : Machine) (s : SpaceId) : Prop :=
  ∀ v v' g g' b b' f i, m.pending? ⟨s, v⟩ = some (g, b) → m.pending? ⟨s, v'⟩ = some (g', b') →
    g.Covers f i → g'.Covers f i → v = v'

/-- What a space held is free, the changes of its pages are in their files, and
nothing else is touched. -/
structure Released (m : Machine) (s : SpaceId) (t : Machine) : Prop where
  pages : t.pages s = {}
  table : t.table s = {}
  others : ∀ k, k ≠ s → t.space k = m.space k
  frames : ∀ f, t.frames.get? f = (m.frames.get? f).map (Frame.disown (fun id => id.space == s))
  frameCount : t.frames.size = m.frames.size
  slots : ∀ k, t.swap.isUsed k = true ↔ m.swap.isUsed k = true ∧
    ∀ v page, m.page? ⟨s, v⟩ = some page → page.slot? ≠ some k
  ram : t.ram = m.ram
  disk : t.swap.disk = m.swap.disk
  size : ∀ f, (t.files.get f).size = (m.files.get f).size
  untouched : ∀ f i, (∀ v g b, m.pending? ⟨s, v⟩ = some (g, b) → ¬g.Covers f i) →
    t.fileByte? f i = m.fileByte? f i
  written : t.losses = m.losses → m.DirtyApart s → ∀ v g b, m.pending? ⟨s, v⟩ = some (g, b) →
    ∀ i, g.Covers g.file i → t.fileByte? g.file i = b[i - g.offset]?

theorem frameCount_of_get? {t u : FrameTable}
    (h : ∀ f, (u.get? f).isSome = (t.get? f).isSome) : u.size = t.size := by
  have hlt (w : FrameTable) (i : Nat) : (w.get? ⟨i⟩).isSome = true ↔ i < w.size := by
    simp [FrameTable.get?, FrameTable.size]
  refine le_antisymm (Nat.le_of_not_lt fun hi => ?_) (Nat.le_of_not_lt fun hi => ?_)
  · have := (hlt u t.size).mpr hi
    rw [h, hlt] at this
    exact absurd this (lt_irrefl _)
  · have := (hlt t u.size).mpr hi
    rw [← h, hlt] at this
    exact absurd this (lt_irrefl _)

theorem released_of_clears (hc : m.Confined s t)
    (hclears : m.layout.Clears (fun id => id.space == s) t.layout)
    (hdrains : m.layout.Drains (fun id => id.space == s) t.layout) : m.Released s t where
  pages := PageMap.eq_empty fun v => (hclears.page ⟨s, v⟩).trans (if_pos (beq_self_eq_true s))
  table := PageTable.eq_empty fun v => (hclears.entry ⟨s, v⟩).trans (if_pos (beq_self_eq_true s))
  others := hc.others
  frames := hclears.frames
  frameCount := frameCount_of_get? fun f => by
    rw [show t.frames.get? f = _ from hclears.frames f, Option.isSome_map]
    rfl
  slots k := by
    refine (hclears.slots k).trans (and_congr_right fun _ => ⟨fun h v page hpage hk => ?_,
      fun h id hid hk => ?_⟩)
    · exact h ⟨s, v⟩ (beq_self_eq_true s) (Option.bind_eq_some_iff.mpr ⟨page, hpage, hk⟩)
    · obtain ⟨page, hpage, hslot⟩ := Option.bind_eq_some_iff.mp hk
      obtain ⟨k', v⟩ := id
      obtain rfl : k' = s := beq_iff_eq.mp hid
      exact h v page hpage hslot
  ram := hc.ram
  disk := hc.disk
  size := hdrains.size
  untouched f i h := hdrains.untouched f i fun id g b hid hpend => by
    obtain ⟨k, v⟩ := id
    obtain rfl : k = s := beq_iff_eq.mp hid
    exact h v g b ((pending?_eq m _).trans hpend)
  written hlost ha v g b hpend := by
    refine hdrains.written hlost (fun id id' g g' b b' f i hid hid' hp hp' hi hi' => ?_) ⟨s, v⟩ g b
      (beq_self_eq_true s) ((pending?_eq m _).symm.trans hpend)
    obtain ⟨k, v⟩ := id
    obtain ⟨k', v'⟩ := id'
    obtain rfl : k = s := beq_iff_eq.mp hid
    obtain rfl : k' = k := beq_iff_eq.mp hid'
    rw [ha v v' g g' b b' f i ((pending?_eq m _).trans hp) ((pending?_eq m _).trans hp') hi hi']

/-- If no change is lost it does not matter how a space was released. -/
theorem Released.data_eq (h : m.Released s t) (h' : m.Released s u) (ha : m.DirtyApart s)
    (ht : t.losses = m.losses) (hu : u.losses = m.losses) (f : FileId) :
    (u.files.get f).data = (t.files.get f).data := by
  refine Array.ext_getElem? fun i => ?_
  change u.fileByte? f i = t.fileByte? f i
  rcases Classical.em (∃ v g b, m.pending? ⟨s, v⟩ = some (g, b) ∧ g.Covers f i) with hcov | hcov
  · obtain ⟨v, g, b, hpend, hi⟩ := hcov
    obtain rfl := hi.1
    rw [h.written ht ha v g b hpend i hi, h'.written hu ha v g b hpend i hi]
  · have hnot (v : VirtPage) (g : Segment) (b : PageBytes)
        (hpend : m.pending? ⟨s, v⟩ = some (g, b)) : ¬g.Covers f i :=
      fun hi => hcov ⟨v, g, b, hpend, hi⟩
    rw [h.untouched f i hnot, h'.untouched f i hnot]

theorem create_eq_self {x : Trap} (hp : t.pages s = {}) (ht : t.table s = {})
    (hr : (t.space s).refusals = x) (hm : t.Made s) : t.create s x = t := by
  have hspace : t.space s = { refusals := x } := by
    rw [← hr, ← show (t.space s).table = {} from ht, ← show (t.space s).pages = {} from hp]
  rw [create, ← hspace]
  exact congrArg (fun spaces => { t with spaces := spaces }) (Store.set_get_self hm)

end Machine

namespace Op

open Machine

variable {m : Machine} {s : SpaceId} {order : List VirtPage} {op : Op}

/-- A space gives up its pages in this order, to be used again or to be gone. -/
def GivesUp (s : SpaceId) (order : List VirtPage) (op : Op) : Prop :=
  op = .kill s order ∨ op = .drop s order

theorem kill_released (hs : m.layout.Sound) (hu : m.layout.Unpinned) (hf : m.layout.Fitting)
    (ho : order.Perm (m.pages s).keys) :
    ((Op.kill s order).run m).1.failure = none ∧ m.Released s ((Op.kill s order).run m).2 ∧
      m.Confined s ((Op.kill s order).run m).2 := by
  refine perform_ends (Q := fun r t => r.failure = none ∧ m.Released s t ∧ m.Confined s t)
    ((killInOrder_clears hs hu hf ho).mono ?_ fun _ _ h => h.elim)
  intro _ t h
  obtain ⟨hc, hclears, hdrains, -⟩ := h
  exact ⟨rfl, released_of_clears hc hclears hdrains, hc⟩

theorem givesUp_released (hs : m.layout.Sound) (hu : m.layout.Unpinned) (hf : m.layout.Fitting)
    (ho : order.Perm (m.pages s).keys) (hop : op.GivesUp s order) :
    (op.run m).1.failure = none ∧ m.Released s (op.run m).2 := by
  rcases hop with rfl | rfl
  · obtain ⟨hn, hr, -⟩ := kill_released hs hu hf ho
    exact ⟨hn, hr⟩
  · refine perform_ends (Q := fun r t => r.failure = none ∧ m.Released s t) ?_
    simp only [ends_bind, ends_modify]
    refine (killInOrder_clears hs hu hf ho).mono ?_ fun _ _ h => h.elim
    intro _ t h
    obtain ⟨hc, hclears, hdrains, hst⟩ := h
    have hv : t.layout.Vacant s := fun v =>
      (hclears.page ⟨s, v⟩).trans (if_pos (beq_self_eq_true s))
    have hl := layout_setSpace_vacant (x := default) hst hv rfl rfl
    have hr := released_of_clears hc hclears hdrains
    have hspace := space_setSpace t s s default
    rw [if_pos rfl] at hspace
    refine ⟨trivial, { hr with pages := ?_, table := ?_, others := fun k hk => ?_ }⟩
    · exact congrArg Space.pages hspace
    · exact congrArg Space.table hspace
    · rw [space_setSpace, if_neg (Ne.symm hk), hr.others k hk]

end Op

/-- In whatever order the pages of a space are given up, the same is free
afterwards, and if no change is lost the files are the same. The space is as if
it had just been made. -/
theorem Reachable.space_released {m : Machine} (h : Reachable m) {s : SpaceId}
    {order : List VirtPage} (ho : order.Perm (m.pages s).keys) :
    (∀ op : Op, op.GivesUp s order →
      (op.run m).1.failure = none ∧ m.Released s (op.run m).2 ∧
        (m.DirtyApart s → (op.run m).2.losses = m.losses →
          ∀ order' op', order'.Perm (m.pages s).keys → Op.GivesUp s order' op' →
            (op'.run m).2.losses = m.losses →
              ∀ f, ((op'.run m).2.files.get f).data = ((op.run m).2.files.get f).data)) ∧
      (m.Made s → ((Op.kill s order).run m).2.create s (m.space s).refusals =
        ((Op.kill s order).run m).2) := by
  obtain ⟨hs, hu⟩ := h.sound
  have hf := h.fitting
  refine ⟨fun op hop => ?_, fun hm => ?_⟩
  · obtain ⟨hn, hr⟩ := Op.givesUp_released hs hu hf ho hop
    refine ⟨hn, hr, fun ha hl order' op' ho' hop' hl' f => ?_⟩
    exact hr.data_eq (Op.givesUp_released hs hu hf ho' hop').2 ha hl hl' f
  · obtain ⟨-, hr, hc⟩ := Op.kill_released hs hu hf ho
    exact Machine.create_eq_self hr.pages hr.table hc.refusals (hc.made hm)

theorem space_released_slot_and_dirty_page :
    ∃ m, m = ((Op.write 0 ⟨8192⟩ [88] ⟨0⟩).run ((Op.write 0 ⟨4096⟩ [7] ⟨0⟩).run
        ((Op.alloc 0 .anon ⟨4096⟩ true none).run ((Op.mmap 0 ⟨8192⟩ 1 true 0 0).run
          (.boot {} (.ofCapacity 1) (some (.ofCount 8)) [.ofList [1, 2, 3]])).2).2).2).2 ∧
      [⟨2⟩, ⟨1⟩].Perm (m.pages 0).keys ∧ m.swap.isUsed ⟨0⟩ = true ∧
      (m.pending? ⟨0, ⟨2⟩⟩).isSome = true ∧
      (∀ op : Op, op.GivesUp 0 [⟨2⟩, ⟨1⟩] →
        (op.run m).1.failure = none ∧ m.Released 0 (op.run m).2) ∧
      ((Op.kill 0 [⟨2⟩, ⟨1⟩]).run m).2.create 0 (m.space 0).refusals =
        ((Op.kill 0 [⟨2⟩, ⟨1⟩]).run m).2 := by
  have h₀ : Starts (.boot {} (.ofCapacity 1) (some (.ofCount 8)) [.ofList [1, 2, 3]]) :=
    ⟨{}, 1, some (.ofCount 8), [.ofList [1, 2, 3]], by decide, by rintro d ⟨⟩; decide, rfl⟩
  have h : Runs (.boot {} (.ofCapacity 1) (some (.ofCount 8)) [.ofList [1, 2, 3]])
      [(.mmap 0 ⟨8192⟩ 1 true 0 0, _), (.alloc 0 .anon ⟨4096⟩ true none, _),
        (.write 0 ⟨4096⟩ [7] ⟨0⟩, _), (.write 0 ⟨8192⟩ [88] ⟨0⟩, _)] _ :=
    .cons trivial (.cons trivial (.cons trivial (.cons trivial (.nil _))))
  have ho : [⟨2⟩, ⟨1⟩].Perm ((((Op.write 0 ⟨8192⟩ [88] ⟨0⟩).run
      ((Op.write 0 ⟨4096⟩ [7] ⟨0⟩).run ((Op.alloc 0 .anon ⟨4096⟩ true none).run
        ((Op.mmap 0 ⟨8192⟩ 1 true 0 0).run (.boot {} (.ofCapacity 1) (some (.ofCount 8))
          [.ofList [1, 2, 3]])).2).2).2).2).pages 0).keys := by
    decide +kernel
  obtain ⟨hall, hnew⟩ := Reachable.space_released ⟨_, _, h₀, h⟩ ho
  refine ⟨_, rfl, ho, by decide +kernel, by decide +kernel, fun op hop => ?_, hnew ?_⟩
  · exact ⟨(hall op hop).1, (hall op hop).2.1⟩
  · exact Std.ExtTreeMap.mem_iff_contains.mpr (by decide +kernel)

end Pager
