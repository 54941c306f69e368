import Pager.Proofs.Consistency

namespace Pager

open Step

theorem Ram.exists_deallocAll {r : Ram} {ps : List PhysPage} (h : (ps ++ r.free).Nodup) :
    ∃ r', r.deallocAll ps = .ok r' := by
  induction ps generalizing r with
  | nil => exact ⟨r, rfl⟩
  | cons p ps ih =>
      obtain ⟨hp, hps⟩ := List.nodup_cons.mp h
      have hfree : p ∉ r.free := fun hmem => hp (List.mem_append_right _ hmem)
      have hrest : (ps ++ ({ r with free := p :: r.free } : Ram).free).Nodup :=
        List.perm_middle.nodup_iff.mpr h
      obtain ⟨r', hr'⟩ := ih hrest
      exact ⟨r', by rw [deallocAll, dealloc, if_neg hfree]; exact hr'⟩

namespace Op

/-- An operation asks for addresses that there are. -/
def InBounds (c : Config) : Op → Prop
  | read _ a len _ => a.toNat + len < wordBound
  | write _ a data _ => a.toNat + data.length < wordBound
  | setUpStack _ => pageSize ≤ c.stackTop.toNat
  | _ => True

theorem InBounds.not_overflows {c : Config} {op : Op} {e : Failure} (h : op.InBounds c) :
    ¬op.Overflows c e := by
  cases op with
  | read | write => exact fun ho => absurd ho.2 (Nat.not_le.mpr h)
  | setUpStack => exact fun ho => absurd ho.2 (Nat.not_lt.mpr h)
  | _ => exact fun ho => ho

end Op

namespace Machine

variable {m : Machine}

/-- What the system asserts of pages, frames and slots when it comes to them. -/
structure Guarded (m : Machine) : Prop where
  tenant : ∀ f fr id, m.frames.get? f = some fr → m.tenant? fr = some id →
    ∃ page, m.page? id = some page ∧ page.frame? = some f ∧ page.loaded = true ∧
      page.slot? = none
  frame : ∀ id page f, m.page? id = some page → page.frame? = some f →
    ∃ fr, m.frames.get? f = some fr ∧ Ram.InRange m.ram.capacity fr.page
  slot : ∀ id page s, m.page? id = some page → page.slot? = some s →
    m.swap.isUsed s = true ∧ s.index / 64 < m.swap.bitmap.words.size ∧ 0 < m.swap.usedSlots ∧
      ∀ i < sectorsPerPage, s.index * sectorsPerPage + i < wordBound
  head : ∀ id page, m.page? id = some page → page.kind = .anon → page.span = 0
  mapping : ∀ id page, m.page? id = some page → id.page.toNat + page.span ≤ wordBound
  shutDown : ∃ t, shutDown m = .ok () t

theorem exists_shutDown (hs : m.layout.Sound) : ∃ t, shutDown m = .ok () t := by
  obtain ⟨r, hr⟩ := Ram.exists_deallocAll (r := m.ram) hs.nodup_pages
  have hr' : m.ram.deallocAll (m.frames.frames.toList.map Frame.page) = .ok r := hr
  have hends : Ends shutDown m (fun _ _ => True) (fun _ _ => False) := by
    simp only [shutDown, ends_bind, ends_get, hr', Step.ofExcept, ends_pure, ends_set]
  cases hx : shutDown m with
  | ok _ t => exact ⟨t, rfl⟩
  | error => exact (hends.of_error hx).elim

theorem guarded_of_sound (hs : m.layout.Sound) : m.Guarded where
  tenant f fr id hfr ht := by
    have hhome := (hs.owners f id).mp ((owner?_eq_some hs).mpr ⟨fr, hfr, ht⟩)
    obtain ⟨page, hpage, hf⟩ := home?_eq_some.mp hhome
    have hc := hs.coherent hpage
    exact ⟨page, hpage, hf, hc.loaded_of_frame hf, hc.slot?_of_frame hf⟩
  frame id page f hpage hf := by
    obtain ⟨p, hp⟩ := hs.exists_phys? (home?_eq_some.mpr ⟨page, hpage, hf⟩)
    obtain ⟨fr, hfr, rfl⟩ := Option.map_eq_some_iff.mp hp
    exact ⟨fr, hfr, hs.inRange hp⟩
  slot id page s hpage hslot := by
    have hused := hs.test_slot (Option.bind_eq_some_iff.mpr ⟨page, hpage, hslot⟩)
    have hlt := Swap.Bitmap.lt_of_test hused
    have hwords : m.swap.bitmap.words.size = (m.swap.bitmap.slots + 63) / 64 :=
      hs.bitmap.wellFormed
    have hcount : m.swap.bitmap.slots * sectorsPerPage < wordBound := hs.slots_lt
    refine ⟨hused, ?_, hs.bitmap.used_pos hused, fun i hi => ?_⟩
    · change s.index < m.swap.bitmap.slots at hlt
      omega
    · have hle : (s.index + 1) * sectorsPerPage ≤ m.swap.bitmap.slots * sectorsPerPage :=
        Nat.mul_le_mul_right _ hlt
      rw [Nat.succ_mul] at hle
      omega
  head id page hpage hk := (hs.pages id page hpage).anon hk
  mapping id page hpage := (hs.pages id page hpage).le
  shutDown := exists_shutDown hs

end Machine

/-- With a frame to be had no operation finds the system in a state that it does
not allow for, whatever else fails. -/
theorem Runs.no_panic {m₀ m : Machine} {trail : List (Op × Report)} (h₀ : Starts m₀)
    (hf : 0 < m₀.ram.capacity) (h : Runs m₀ trail m)
    (hb : ∀ x ∈ trail, x.1.InBounds m₀.config) :
    (∀ x ∈ trail, ∀ q, x.2.failure ≠ some (.panic q)) ∧ m.Guarded := by
  obtain ⟨hs, hu⟩ := h₀.sound
  refine ⟨fun x hx q hq => ?_, Machine.guarded_of_sound (h.sound hs hu).1⟩
  rcases h.failures hs hu x hx _ hq with ⟨-, hzero⟩ | hover
  · have hcap : m₀.ram.capacity = 0 := hzero
    omega
  · exact (hb x hx).not_overflows hover

theorem no_panic_two_pages_one_frame :
    ∃ trail m, Runs (.boot {} (.ofCapacity 1) (some (.ofCount 8)) []) trail m ∧
      trail.map Prod.fst = [.setUpStack 0, .alloc 0 .anon ⟨4096⟩ true none,
        .write 0 ⟨4096⟩ [1, 2, 3] ⟨0⟩, .claim 0 ⟨4096⟩, .read 0 ⟨4096⟩ 3 ⟨0⟩, .munmap 0 ⟨4096⟩] ∧
      (∀ x ∈ trail, ∀ q, x.2.failure ≠ some (.panic q)) ∧ m.Guarded := by
  have h₀ : Starts (.boot {} (.ofCapacity 1) (some (.ofCount 8)) []) :=
    ⟨{}, 1, some (.ofCount 8), [], by decide, by rintro d ⟨⟩; decide, rfl⟩
  have h : Runs (.boot {} (.ofCapacity 1) (some (.ofCount 8)) [])
      [(.setUpStack 0, _), (.alloc 0 .anon ⟨4096⟩ true none, _),
        (.write 0 ⟨4096⟩ [1, 2, 3] ⟨0⟩, _), (.claim 0 ⟨4096⟩, _), (.read 0 ⟨4096⟩ 3 ⟨0⟩, _),
        (.munmap 0 ⟨4096⟩, _)] _ :=
    .cons trivial (.cons trivial (.cons trivial (.cons trivial (.cons trivial
      (.cons trivial (.nil _))))))
  refine ⟨_, _, h, rfl, Runs.no_panic h₀ (by decide) h ?_⟩
  simp only [List.mem_cons, List.not_mem_nil, or_false]
  rintro x (rfl | rfl | rfl | rfl | rfl | rfl)
  · change 4096 ≤ 0x47480000
    decide
  · trivial
  · change 4096 + 3 < 2 ^ 64
    decide
  · trivial
  · change 4096 + 3 < 2 ^ 64
    decide
  · trivial

end Pager
