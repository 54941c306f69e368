import Pager.Machine

namespace Pager.Machine

variable (m : Machine) (s t : SpaceId) (id other : PageId)

theorem space_setSpace (x : Space) :
    (m.setSpace s x).space t = if s = t then x else m.space t :=
  Store.get_set m.spaces s t x

theorem page?_eq : m.page? id = (m.space id.space).pages.get? id.page := rfl

theorem mapping?_eq : m.mapping? id = (m.space id.space).table.get? id.page := rfl

theorem page?_setSpace (x : Space) :
    (m.setSpace s x).page? id = if s = id.space then x.pages.get? id.page else m.page? id := by
  rw [page?_eq, space_setSpace]
  split <;> rfl

theorem mapping?_setSpace (x : Space) :
    (m.setSpace s x).mapping? id =
      if s = id.space then x.table.get? id.page else m.mapping? id := by
  rw [mapping?_eq, space_setSpace]
  split <;> rfl

theorem page?_setPage (p : Page) :
    (m.setPage id p).page? other = if id = other then some p else m.page? other := by
  obtain ⟨s, v⟩ := id
  obtain ⟨t, w⟩ := other
  rw [setPage, page?_setSpace]
  by_cases hs : s = t
  · subst hs
    simp only [if_true, PageMap.get?_set, PageId.mk.injEq, true_and]
    split <;> rfl
  · simp [hs]

theorem page?_erasePage :
    (m.erasePage id).page? other = if id = other then none else m.page? other := by
  obtain ⟨s, v⟩ := id
  obtain ⟨t, w⟩ := other
  rw [erasePage, page?_setSpace]
  by_cases hs : s = t
  · subst hs
    simp only [if_true, PageMap.get?_erase, PageId.mk.injEq, true_and]
    split <;> rfl
  · simp [hs]

theorem page?_setTable (x : PageTable) : (m.setTable s x).page? id = m.page? id := by
  rw [setTable, page?_setSpace]
  split
  next h => subst h; rfl
  next => rfl

theorem mapping?_setTable (x : PageTable) :
    (m.setTable s x).mapping? id = if s = id.space then x.get? id.page else m.mapping? id := by
  rw [setTable, mapping?_setSpace]

theorem mapping?_setPage (p : Page) : (m.setPage id p).mapping? other = m.mapping? other := by
  rw [setPage, mapping?_setSpace]
  split
  next h => rw [h]; rfl
  next => rfl

theorem mapping?_erasePage : (m.erasePage id).mapping? other = m.mapping? other := by
  rw [erasePage, mapping?_setSpace]
  split
  next h => rw [h]; rfl
  next => rfl

theorem mapping?_unmapPage :
    (m.unmapPage id).mapping? other = if id = other then none else m.mapping? other := by
  obtain ⟨s, v⟩ := id
  obtain ⟨t, w⟩ := other
  rw [unmapPage, mapping?_setTable]
  by_cases hs : s = t
  · subst hs
    simp only [if_true, PageTable.get?_clear, PageId.mk.injEq, true_and]
    split <;> rfl
  · simp [hs]

theorem mapping?_setFlag (f : Flag) (on : Bool) :
    (m.setFlag id f on).mapping? other =
      if id = other then (m.mapping? id).map (fun e => e.set f on) else m.mapping? other := by
  obtain ⟨s, v⟩ := id
  obtain ⟨t, w⟩ := other
  rw [setFlag, mapping?_setTable]
  by_cases hs : s = t
  · subst hs
    simp only [if_true, PageTable.get?_set, PageId.mk.injEq, true_and]
    split <;> rfl
  · simp [hs]

theorem tenant?_eq_some {fr : Frame} :
    m.tenant? fr = some id ↔ fr.owner = some id ∧ (m.page? id).isSome := by
  simp only [tenant?, Option.filter_eq_some_iff]

end Pager.Machine
