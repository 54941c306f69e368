import Pager.Proofs.Invariance
import Mathlib.Data.Set.Card

namespace Pager.Machine

variable {m : Machine} {id : PageId} {f : FrameId} {page : Page} {fr : Frame}

/-- Pages, frames and page tables tell the same story. -/
structure Consistent (m : Machine) : Prop where
  home_iff : ∀ id f, (∃ page, m.page? id = some page ∧ page.frame? = some f) ↔
    ∃ fr, m.frames.get? f = some fr ∧ m.tenant? fr = some id
  alone : ∀ id id' page page' f, m.page? id = some page → m.page? id' = some page' →
    page.frame? = some f → page'.frame? = some f → id = id'
  residentCount_eq :
    {id | ∃ page, m.page? id = some page ∧ page.resident = true}.encard = m.residentCount
  unpinned : ∀ f fr, m.frames.get? f = some fr → fr.pinned = false
  distinct : (m.frames.frames.toList.map Frame.page).Nodup
  taken : ∀ f fr, m.frames.get? f = some fr → fr.page ∉ m.ram.free
  hand_lt : m.frames.hand < m.frames.size ∨ m.frames.size = 0
  entries : ∀ id e, m.mapping? id = some e → ∃ page f fr, m.page? id = some page ∧
    page.frame? = some f ∧ m.frames.get? f = some fr ∧ e.page = fr.page ∧
      e.has .writable = page.writable

theorem home?_eq_some :
    m.layout.home? id = some f ↔ ∃ page, m.page? id = some page ∧ page.frame? = some f :=
  Option.bind_eq_some_iff

theorem owner?_eq_some (hs : m.layout.Sound) :
    m.layout.owner? f = some id ↔ ∃ fr, m.frames.get? f = some fr ∧ m.tenant? fr = some id := by
  constructor
  · intro h
    obtain ⟨fr, hfr, -⟩ := Option.bind_eq_some_iff.mp h
    exact ⟨fr, hfr, (tenant?_eq_owner? hs hfr).trans h⟩
  · intro h
    obtain ⟨fr, hfr, h⟩ := h
    rw [← tenant?_eq_owner? hs hfr, h]

def tenants (m : Machine) : List PageId := m.frames.frames.toList.filterMap m.tenant?

theorem length_tenants (m : Machine) : m.tenants.length = m.residentCount := by
  rw [tenants, List.length_filterMap_eq_countP, residentCount, List.countP_eq_length_filter]

theorem mem_tenants (hs : m.layout.Sound) :
    id ∈ m.tenants ↔ ∃ page, m.page? id = some page ∧ page.resident = true := by
  have hhome : (∃ f, m.layout.home? id = some f) ↔
      ∃ page, m.page? id = some page ∧ page.resident = true := by
    constructor
    · intro h
      obtain ⟨f, hf⟩ := h
      obtain ⟨page, hp, hf⟩ := home?_eq_some.mp hf
      exact ⟨page, hp, by rw [Page.resident, hf, Option.isSome_some]⟩
    · intro h
      obtain ⟨page, hp, hr⟩ := h
      obtain ⟨f, hf⟩ := Option.isSome_iff_exists.mp hr
      exact ⟨f, home?_eq_some.mpr ⟨page, hp, hf⟩⟩
  rw [← hhome, tenants, List.mem_filterMap]
  constructor
  · intro h
    obtain ⟨fr, hmem, ht⟩ := h
    obtain ⟨i, hi⟩ := Array.mem_iff_getElem?.mp (Array.mem_toList_iff.mp hmem)
    exact ⟨⟨i⟩, (hs.owners _ _).mp ((owner?_eq_some hs).mpr ⟨fr, hi, ht⟩)⟩
  · intro h
    obtain ⟨f, hf⟩ := h
    obtain ⟨fr, hfr, ht⟩ := (owner?_eq_some hs).mp ((hs.owners _ _).mpr hf)
    exact ⟨fr, Array.mem_toList_iff.mpr (Array.mem_of_getElem? hfr), ht⟩

theorem nodup_tenants (hs : m.layout.Sound) : m.tenants.Nodup := by
  rw [tenants, List.Nodup, List.pairwise_filterMap, List.pairwise_iff_getElem]
  rintro i j hi hj hlt id hid _ hid' rfl
  simp only [Array.length_toList] at hi hj
  have hget (k : Nat) (hk : k < m.frames.frames.size) :
      m.frames.get? ⟨k⟩ = some m.frames.frames.toList[k] := by
    simp [FrameTable.get?, hk]
  have hi' := (hs.owners _ _).mp ((owner?_eq_some hs).mpr ⟨_, hget i hi, hid⟩)
  have hj' := (hs.owners _ _).mp ((owner?_eq_some hs).mpr ⟨_, hget j hj, hid'⟩)
  have := congrArg FrameId.index (Option.some.inj (hi'.symm.trans hj'))
  exact absurd this (Nat.ne_of_lt hlt)

theorem encard_resident (hs : m.layout.Sound) :
    {id | ∃ page, m.page? id = some page ∧ page.resident = true}.encard = m.residentCount := by
  have hset : {id | ∃ page, m.page? id = some page ∧ page.resident = true} =
      (m.tenants.toFinset : Set PageId) := by
    ext id
    rw [Finset.mem_coe, List.mem_toFinset, mem_tenants hs]
    rfl
  rw [hset, Set.encard_coe_eq_coe_finsetCard, List.toFinset_card_of_nodup (nodup_tenants hs),
    length_tenants]

theorem consistent_of_sound (hs : m.layout.Sound) (hu : m.layout.Unpinned) : m.Consistent where
  home_iff id f := by
    rw [← home?_eq_some, ← owner?_eq_some hs, hs.owners]
  alone id id' page page' f hp hp' hf hf' := by
    have h := (hs.owners f id).mpr (home?_eq_some.mpr ⟨page, hp, hf⟩)
    have h' := (hs.owners f id').mpr (home?_eq_some.mpr ⟨page', hp', hf'⟩)
    exact Option.some.inj (h.symm.trans h')
  residentCount_eq := encard_resident hs
  unpinned f fr hf := by
    by_contra hp
    exact hu f ⟨fr, hf, by simpa using hp⟩
  distinct := List.Nodup.of_append_left hs.nodup_pages
  taken f fr hf hfree := by
    have hmem : fr.page ∈ m.layout.frames.physPages := by
      rw [FrameTable.mem_physPages]
      exact ⟨f, by rw [FrameTable.phys?, show m.layout.frames.get? f = some fr from hf]; rfl⟩
    exact List.disjoint_of_nodup_append hs.nodup_pages hmem hfree
  hand_lt := by
    have h : m.frames.hand < max 1 m.frames.size := hs.hand_lt
    omega
  entries id e he := by
    obtain ⟨page, f, hp, hf, hphys, hw⟩ := hs.entries id e he
    obtain ⟨fr, hfr, hpage⟩ := Option.map_eq_some_iff.mp hphys
    exact ⟨page, f, fr, hp, hf, hfr, hpage.symm, hw⟩

end Pager.Machine

namespace Pager

/-- Between operations the system is consistent, whatever was asked of it and
whatever failed. -/
theorem Reachable.consistent {m : Machine} (h : Reachable m) : m.Consistent :=
  Machine.consistent_of_sound h.sound.1 h.sound.2

theorem consistent_two_pages_one_frame :
    ((Op.claim 0 ⟨8192⟩).run ((Op.claim 0 ⟨4096⟩).run ((Op.alloc 0 .anon ⟨8192⟩ true none).run
      ((Op.alloc 0 .anon ⟨4096⟩ true none).run
        (.boot {} (.ofCapacity 1) (some (.ofCount 8)) [])).2).2).2).2.Consistent := by
  have h₀ : Starts (.boot {} (.ofCapacity 1) (some (.ofCount 8)) []) :=
    ⟨{}, 1, some (.ofCount 8), [], by decide, by rintro d ⟨⟩; decide, rfl⟩
  have ha (m : Machine) (a : VirtAddr) : (Op.alloc 0 .anon a true none).Admissible m := trivial
  have hc (m : Machine) (a : VirtAddr) : (Op.claim 0 a).Admissible m := trivial
  exact Reachable.consistent
    ⟨_, _, h₀, .cons (ha _ _) (.cons (ha _ _) (.cons (hc _ _) (.cons (hc _ _) (.nil _))))⟩

end Pager
