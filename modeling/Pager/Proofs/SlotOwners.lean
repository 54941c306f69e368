import Pager.Proofs.Invariance
import Mathlib.Data.Set.Card

namespace Pager.Machine

variable {m m' : Machine} {id : PageId} {s : Slot}

/-- The slots in use are those of the pages that are in the swap area, each of
one page. -/
structure SlotsOwned (m : Machine) : Prop where
  used_iff : ∀ s : Slot, m.swap.isUsed s = true ↔
    ∃ id page, m.page? id = some page ∧ page.slot? = some s
  alone : ∀ id id' page page' s, m.page? id = some page → m.page? id' = some page' →
    page.slot? = some s → page'.slot? = some s → id = id'
  lt_slotCount : ∀ id page s, m.page? id = some page → page.slot? = some s →
    s.index < m.swap.slotCount
  usedSlots_eq : {id | ∃ page, m.page? id = some page ∧ page.currentType = .anon ∧
    page.resident = false}.encard = m.swap.usedSlots

theorem slot?_eq_some :
    m.layout.slot? id = some s ↔ ∃ page, m.page? id = some page ∧ page.slot? = some s :=
  Option.bind_eq_some_iff

theorem exists_slot?_iff {page : Page} (h : page.Coherent) :
    (∃ s, page.slot? = some s) ↔ page.currentType = .anon ∧ page.resident = false := by
  cases h with
  | unloaded => simp [Page.slot?, Page.currentType, Page.loaded]
  | slot | frame | file | idle =>
      simp [Page.slot?, Page.currentType, Page.loaded, Page.kind, Kind.type, Page.resident]

theorem encard_slots (hs : m.layout.Sound) :
    {id | ∃ s, m.layout.slot? id = some s}.encard = m.swap.usedSlots := by
  have hinj : Set.InjOn (fun id => ((m.layout.slot? id).map Slot.index).getD 0)
      {id | ∃ s, m.layout.slot? id = some s} := by
    rintro i ⟨s, hi⟩ j ⟨t, hj⟩ he
    simp only [hi, hj, Option.map_some, Option.getD_some] at he
    apply hs.slots.inj i j s hi
    rw [hj]
    cases s
    cases t
    simp_all
  have himage : (fun id => ((m.layout.slot? id).map Slot.index).getD 0) ''
      {id | ∃ s, m.layout.slot? id = some s} = (m.swap.bitmap.taken : Set Nat) := by
    ext i
    rw [Finset.mem_coe, Swap.Bitmap.mem_taken]
    constructor
    · intro h
      obtain ⟨id, ⟨s, hid⟩, rfl⟩ := h
      change m.swap.bitmap.test (((m.layout.slot? id).map Slot.index).getD 0) = true
      rw [hid]
      exact hs.test_slot hid
    · intro hi
      obtain ⟨id, hid⟩ := (hs.slots.used_iff ⟨i⟩).mp hi
      exact ⟨id, ⟨⟨i⟩, hid⟩, by simp only [hid, Option.map_some, Option.getD_some]⟩
  have hcard : m.swap.usedSlots = m.swap.bitmap.taken.card := hs.bitmap.used_eq
  rw [← hinj.encard_image, himage, Set.encard_coe_eq_coe_finsetCard, hcard]

theorem slotsOwned_of_sound (hs : m.layout.Sound) : m.SlotsOwned where
  used_iff s := by
    rw [show m.swap.isUsed s = m.layout.bitmap.test s.index from rfl, hs.slots.used_iff]
    exact exists_congr fun id => slot?_eq_some
  alone id id' page page' s hp hp' h h' :=
    hs.slots.inj id id' s (slot?_eq_some.mpr ⟨page, hp, h⟩) (slot?_eq_some.mpr ⟨page', hp', h'⟩)
  lt_slotCount id page s hp h :=
    Swap.Bitmap.lt_of_test (hs.test_slot (slot?_eq_some.mpr ⟨page, hp, h⟩))
  usedSlots_eq := by
    rw [← encard_slots hs]
    congr 1
    ext id
    simp only [Set.mem_ofPred_eq, slot?_eq_some]
    constructor
    · rintro ⟨page, hp, h⟩
      obtain ⟨s, hslot⟩ := (exists_slot?_iff (hs.coherent hp)).mpr h
      exact ⟨s, page, hp, hslot⟩
    · rintro ⟨s, page, hp, h⟩
      exact ⟨page, hp, (exists_slot?_iff (hs.coherent hp)).mp ⟨s, h⟩⟩

theorem usedSlots_eq_zero (hs : m.layout.Sound) (h : ∀ id, m.page? id = none) :
    m.swap.usedSlots = 0 := by
  have hempty : {id | ∃ s, m.layout.slot? id = some s} = ∅ := by
    ext id
    simp [slot?_eq_some, h]
  have hcard := encard_slots hs
  rw [hempty, Set.encard_empty] at hcard
  exact_mod_cast hcard.symm

theorem page?_kill (hs : m.layout.Sound) (hu : m.layout.Unpinned) {k : SpaceId}
    {order : List VirtPage} (ha : (Op.kill k order).Admissible m) (id : PageId) :
    ((Op.kill k order).run m).2.page? id = if id.space = k then none else m.page? id := by
  have h := perform_ends (x := killInOrder k order) (m := m)
    (Q := fun _ t => t.layout.page = fun id => if id.space = k then none else m.layout.page id)
    ((killInOrder_ends hs hu ha).mono (fun _ t ⟨cs, _, _, hp⟩ => hp) fun _ _ h => h.elim)
  exact congrFun h id

theorem page?_kills {kills : List (Op × Report)} (h : Runs m kills m') (hs : m.layout.Sound)
    (hu : m.layout.Unpinned) (hk : ∀ x ∈ kills, ∃ k order, x.1 = .kill k order)
    (hid : (m'.page? id).isSome) :
    (m.page? id).isSome ∧ ∀ order r, (Op.kill id.space order, r) ∉ kills := by
  induction h with
  | nil m => exact ⟨hid, by simp⟩
  | @cons m t op trail ha h ih =>
      obtain ⟨cs, hw, -⟩ := Op.goes_run hs hu ha
      obtain ⟨hreg, hnot⟩ := ih (hs.of_course hw.course) hw.unpinned
        (fun x hx => hk x (List.mem_cons_of_mem _ hx)) hid
      obtain ⟨k, order, rfl⟩ : ∃ k order, op = .kill k order := hk _ List.mem_cons_self
      rw [page?_kill hs hu ha] at hreg
      split at hreg
      next => cases hreg
      next hne =>
        refine ⟨hreg, fun order' r hmem => ?_⟩
        rcases List.mem_cons.mp hmem with heq | hmem
        · rw [Prod.mk.injEq, Op.kill.injEq] at heq
          exact hne heq.1.1
        · exact hnot order' r hmem

end Pager.Machine

namespace Pager

/-- Every slot in use has its page after every run, no slot is given up twice on
the way, and once every space with pages is killed all slots are free. -/
theorem Runs.slots_owned {m₀ m : Machine} {trail : List (Op × Report)} (h₀ : Starts m₀)
    (h : Runs m₀ trail m) :
    m.SlotsOwned ∧
      (∀ x ∈ trail, ∀ s, x.2.failure ≠ some (.panic (.slotFreedTwice s))) ∧
      ∀ kills m', Runs m kills m' → (∀ x ∈ kills, ∃ k order, x.1 = .kill k order) →
        (∀ id, (m.page? id).isSome → ∃ order r, (Op.kill id.space order, r) ∈ kills) →
        m'.swap.usedSlots = 0 := by
  obtain ⟨hs, hu⟩ := h.sound h₀.sound.1 h₀.sound.2
  refine ⟨Machine.slotsOwned_of_sound hs, fun x hx s hf => ?_, fun kills m' hr hk hall => ?_⟩
  · rcases h.expected h₀.sound.1 h₀.sound.2 x hx _ hf with hp | hp | hp <;> cases hp
  · apply Machine.usedSlots_eq_zero (hr.sound hs hu).1
    intro id
    by_contra hne
    obtain ⟨hreg, hnot⟩ :=
      Machine.page?_kills hr hs hu hk (Option.isSome_iff_ne_none.mpr hne)
    obtain ⟨order, r, hmem⟩ := hall id hreg
    exact hnot order r hmem

theorem slots_owned_two_pages_one_frame :
    ((Op.claim 0 ⟨8192⟩).run ((Op.claim 0 ⟨4096⟩).run ((Op.alloc 0 .anon ⟨8192⟩ true none).run
      ((Op.alloc 0 .anon ⟨4096⟩ true none).run
        (.boot {} (.ofCapacity 1) (some (.ofCount 8)) [])).2).2).2).2.SlotsOwned := by
  have h₀ : Starts (.boot {} (.ofCapacity 1) (some (.ofCount 8)) []) :=
    ⟨{}, 1, some (.ofCount 8), [], by decide, by rintro d ⟨⟩; decide, rfl⟩
  have ha (m : Machine) (a : VirtAddr) : (Op.alloc 0 .anon a true none).Admissible m := trivial
  have hc (m : Machine) (a : VirtAddr) : (Op.claim 0 a).Admissible m := trivial
  exact (Runs.slots_owned h₀
    (.cons (ha _ _) (.cons (ha _ _) (.cons (hc _ _) (.cons (hc _ _) (.nil _)))))).1

end Pager
