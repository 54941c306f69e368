import Pager.Proofs.Teardown
import Pager.Proofs.Panics

namespace Pager

open Step

namespace Ram

variable {r r' : Ram} {ps : List PhysPage}

theorem deallocAll_free (h : r.deallocAll ps = .ok r') : r'.free = ps.reverse ++ r.free := by
  induction ps generalizing r with
  | nil =>
      obtain rfl := Except.ok.inj h
      rfl
  | cons p ps ih =>
      rw [deallocAll, dealloc] at h
      split at h
      next => cases h
      next => rw [ih h, List.reverse_cons, List.append_assoc, List.singleton_append]

theorem allocAll_eq (n : Nat) (r : Ram) :
    r.allocAll n = (r.free.take n, { r with free := r.free.drop n }) := by
  induction n generalizing r with
  | zero => rfl
  | succ n ih =>
      obtain ⟨pages, free⟩ := r
      cases free with
      | nil => rfl
      | cons p ps =>
          simp only [allocAll, alloc?, ih, List.take_succ_cons, List.drop_succ_cons]

end Ram

namespace Layout

variable {l l₁ l' : Layout} {c : Change} {cs : List Change}

def Extends (l l' : Layout) : Prop :=
  ∃ taken, l.free = taken ++ l'.free ∧ l'.frames.physPages = l.frames.physPages ++ taken

namespace Extends

theorem of_same (hfree : l'.free = l.free) (hp : l'.frames.physPages = l.frames.physPages) :
    l.Extends l' :=
  ⟨[], hfree.symm, by rw [hp, List.append_nil]⟩

theorem trans (h : l.Extends l₁) (h' : l₁.Extends l') : l.Extends l' := by
  obtain ⟨ps, hfree, hp⟩ := h
  obtain ⟨qs, hfree', hp'⟩ := h'
  exact ⟨ps ++ qs, by rw [hfree, hfree', List.append_assoc], by rw [hp', hp, List.append_assoc]⟩

theorem of_hidden (hm : l.Hidden l') : l.Extends l' := by
  cases hm with
  | grow p ps hfree => exact ⟨[p], hfree, FrameTable.physPages_push _⟩
  | pin f => exact .of_same rfl FrameTable.physPages_pin
  | unpin f => exact .of_same rfl FrameTable.physPages_unpin
  | saveAnon | saveFile => exact .of_same rfl FrameTable.physPages_unbind
  | swapIn | readIn => exact .of_same rfl FrameTable.physPages_bind
  | sweep | mark | rerun | scribble | keepAnon | keepFile | remap => exact .of_same rfl rfl

theorem of_step (hm : l.ChangeStep c l') : l.Extends l' := by
  cases hm with
  | load => exact .of_same rfl FrameTable.physPages_bind
  | destroyFrame | destroyFile | destroyLost => exact .of_same rfl FrameTable.physPages_unbind
  | register | refresh | store | fill | destroyIdle | destroySlot => exact .of_same rfl rfl

theorem of_course (hm : l.Course cs l') : l.Extends l' :=
  hm.preserves (P := l.Extends) (.of_same rfl rfl) (fun hab h => h.trans (.of_hidden hab))
    fun _ hab h => h.trans (.of_step hab)

end Extends

end Layout

namespace Machine

variable {m t : Machine}

def framePages (m : Machine) : List PhysPage := m.frames.frames.toList.map Frame.page

/-- Every page of a memory of this capacity is in one frame or free, once, and
what the frames and the page tables name is a page of this memory. -/
structure Conserved (m : Machine) (n : Nat) : Prop where
  memory : (m.framePages ++ m.ram.free).Perm (Ram.all n)
  once : (m.framePages ++ m.ram.free).Nodup
  frames : ∀ f fr, m.frames.get? f = some fr → Ram.InRange n fr.page
  entries : ∀ id e, m.mapping? id = some e → Ram.InRange n e.page

/-- The memory is whole again and hands out each of its pages once. -/
structure GivenBack (m : Machine) (n : Nat) : Prop where
  frameCount : m.frames.size = 0
  free : m.ram.free.Perm (Ram.all n)
  freeCount : m.ram.free.length = n
  handsOut : (m.ram.allocAll n).1.Perm (Ram.all n)
  exhausted : (m.ram.allocAll n).2.alloc? = none

/-- Frames were added only, each of them for a page that was free until then. -/
structure Grown (m t : Machine) : Prop where
  pages : ∃ taken, m.ram.free = taken ++ t.ram.free ∧ t.framePages = m.framePages ++ taken
  frameCount : m.frames.size ≤ t.frames.size
  free : m.frames.size < t.frames.size → m.ram.free ≠ []

theorem length_framePages (m : Machine) : m.framePages.length = m.frames.size := by
  rw [framePages, List.length_map, Array.length_toList, FrameTable.size]

theorem conserved_of_sound (hs : m.layout.Sound) : m.Conserved m.ram.capacity where
  memory := hs.memory
  once := hs.nodup_pages
  frames f fr hfr := hs.inRange (f := f) (by
    rw [Layout.phys?, FrameTable.phys?, show m.layout.frames.get? f = some fr from hfr,
      Option.map_some])
  entries id e he := by
    obtain ⟨page, f, -, -, hp, -⟩ := hs.entries id e he
    exact hs.inRange hp

theorem grown_of_extends (h : m.layout.Extends t.layout) : m.Grown t := by
  obtain ⟨taken, hfree, hpages⟩ := h
  have hfree' : m.ram.free = taken ++ t.ram.free := hfree
  have hpages' : t.framePages = m.framePages ++ taken := hpages
  have hsize : t.frames.size = m.frames.size + taken.length := by
    rw [← length_framePages, ← length_framePages, hpages', List.length_append]
  refine ⟨⟨taken, hfree', hpages'⟩, by omega, fun hlt hnil => ?_⟩
  rw [hfree', List.append_eq_nil_iff] at hnil
  rw [hnil.1, List.length_nil] at hsize
  omega

theorem shutDown_givesBack (hs : m.layout.Sound) :
    ∃ t, shutDown m = .ok () t ∧ t.GivenBack m.ram.capacity := by
  obtain ⟨r, hr⟩ := Ram.exists_deallocAll (r := m.ram) hs.nodup_pages
  have hr' : m.ram.deallocAll (m.frames.frames.toList.map Frame.page) = .ok r := hr
  have hfree : r.free.Perm (Ram.all m.ram.capacity) := by
    rw [Ram.deallocAll_free hr]
    exact ((List.reverse_perm _).append_right _).trans hs.memory
  have hlen : r.free.length = m.ram.capacity := by
    rw [hfree.length_eq, Ram.all, List.length_map, List.length_range]
  have hback : { m with ram := r, frames := {} }.GivenBack m.ram.capacity := by
    refine ⟨rfl, hfree, hlen, ?_, ?_⟩
    · rw [Ram.allocAll_eq, List.take_of_length_le (Nat.le_of_eq hlen)]
      exact hfree
    · rw [Ram.allocAll_eq, List.drop_of_length_le (Nat.le_of_eq hlen)]
      rfl
  have hends : Ends shutDown m (fun _ t => t.GivenBack m.ram.capacity) (fun _ _ => False) := by
    simp only [shutDown, ends_bind, ends_get, hr', Step.ofExcept, ends_pure, ends_set]
    exact hback
  cases hx : shutDown m with
  | ok _ t => exact ⟨t, rfl, hends.of_ok hx⟩
  | error => exact (hends.of_error hx).elim

end Machine

theorem Runs.extends {m t : Machine} {trail : List (Op × Report)} (h : Runs m trail t)
    (hs : m.layout.Sound) (hu : m.layout.Unpinned) : m.layout.Extends t.layout := by
  induction h with
  | nil => exact .of_same rfl rfl
  | cons ha _ ih =>
      obtain ⟨cs, hw, -⟩ := Op.goes_run hs hu ha
      exact (Layout.Extends.of_course hw.course).trans
        (ih (hs.of_course hw.course) hw.unpinned)

theorem Runs.capacity_eq {m t : Machine} {trail : List (Op × Report)} (h : Runs m trail t)
    (hs : m.layout.Sound) (hu : m.layout.Unpinned) : t.ram.capacity = m.ram.capacity := by
  induction h with
  | nil => rfl
  | cons ha _ ih =>
      obtain ⟨cs, hw, -⟩ := Op.goes_run hs hu ha
      exact (ih (hs.of_course hw.course) hw.unpinned).trans (Op.capacity_run hs hu ha)

theorem Runs.drops_succeed {m t : Machine} {drops : List (Op × Report)} (h : Runs m drops t)
    (hs : m.layout.Sound) (hu : m.layout.Unpinned)
    (hd : ∀ x ∈ drops, ∃ s order, x.1 = .drop s order) : ∀ x ∈ drops, x.2.failure = none := by
  induction h with
  | nil => exact fun _ hx => absurd hx List.not_mem_nil
  | @cons m t op trail ha h ih =>
      obtain ⟨cs, hw, -⟩ := Op.goes_run hs hu ha
      intro x hx
      rcases List.mem_cons.mp hx with rfl | hx
      · obtain ⟨s, order, rfl⟩ : ∃ s order, op = .drop s order := hd _ (List.mem_cons_self ..)
        exact Machine.perform_ends (Q := fun r _ => r.failure = none)
          ((Machine.dropInOrder_ends hs hu ha).mono (fun _ _ _ => rfl) fun _ _ h => h.elim)
      · exact ih (hs.of_course hw.course) hw.unpinned
          (fun y hy => hd y (List.mem_cons_of_mem _ hy)) x hx

/-- No operation names a physical page that there is not, or gives one back. -/
def Report.InMemory (c : Config) (op : Op) (r : Report) : Prop :=
  (∀ len i, r.failure ≠ some (.panic (.outOfBounds len i))) ∧
    (r.failure = some (.panic .subOverflow) →
      (∃ s, op = .setUpStack s) ∧ c.stackTop.toNat < pageSize) ∧
    ∀ p, r.failure ≠ some (.panic (.pageFreedTwice p))

theorem Runs.inMemory {m t : Machine} {trail : List (Op × Report)} (h : Runs m trail t)
    (hs : m.layout.Sound) (hu : m.layout.Unpinned) :
    ∀ x ∈ trail, x.2.InMemory m.config x.1 := by
  intro x hx
  have hexp := h.expected hs hu x hx
  refine ⟨fun len i hf => ?_, fun hf => ?_, fun p hf => ?_⟩
  · rcases hexp _ hf with hq | hq | hq <;> cases hq
  · rcases h.failures hs hu x hx _ hf with hq | hq
    · cases hq.1
    · cases hop : x.1 with
      | setUpStack s =>
          rw [hop] at hq
          exact ⟨⟨s, rfl⟩, hq.2⟩
      | read | write =>
          rw [hop] at hq
          cases hq.1
      | _ =>
          rw [hop] at hq
          exact hq.elim
  · rcases hexp _ hf with hq | hq | hq <;> cases hq

/-- The physical pages are conserved by every run, whatever fails in it. Frames
are added only while there is a free page, and when the spaces are dropped and
the system is shut down all pages are free. -/
theorem Runs.pages_conserved {m₀ m : Machine} {trail : List (Op × Report)} (h₀ : Starts m₀)
    (h : Runs m₀ trail m) :
    m.Conserved m₀.ram.capacity ∧ m₀.Grown m ∧
      (∀ x ∈ trail, x.2.InMemory m₀.config x.1) ∧
      (∀ later t, Runs m later t → m.Grown t) ∧
      ∀ drops t, Runs m drops t → (∀ x ∈ drops, ∃ s order, x.1 = .drop s order) →
        (∀ x ∈ drops, x.2.failure = none) ∧
          ∃ u, Machine.shutDown t = .ok () u ∧ u.GivenBack m₀.ram.capacity := by
  obtain ⟨hs₀, hu₀⟩ := h₀.sound
  obtain ⟨hs, hu⟩ := h.sound hs₀ hu₀
  have hcap := h.capacity_eq hs₀ hu₀
  refine ⟨hcap ▸ Machine.conserved_of_sound hs, Machine.grown_of_extends (h.extends hs₀ hu₀),
    h.inMemory hs₀ hu₀, fun later t hl => Machine.grown_of_extends (hl.extends hs hu),
    fun drops t hr hd => ⟨hr.drops_succeed hs hu hd, ?_⟩⟩
  have hback := Machine.shutDown_givesBack (hr.sound hs hu).1
  rwa [hr.capacity_eq hs hu, hcap] at hback

theorem pages_conserved_two_pages_one_frame :
    ∃ trail m, Runs (.boot {} (.ofCapacity 1) (some (.ofCount 0)) []) trail m ∧
      trail.map Prod.fst = [.alloc 0 .anon ⟨4096⟩ true none, .alloc 0 .anon ⟨8192⟩ true none,
        .claim 0 ⟨4096⟩, .claim 0 ⟨8192⟩] ∧
      m.Conserved 1 ∧ m.frames.size = 1 ∧
      ∃ t, Machine.shutDown ((Op.drop 0 [⟨2⟩, ⟨1⟩]).run m).2 = .ok () t ∧ t.GivenBack 1 := by
  have h₀ : Starts (.boot {} (.ofCapacity 1) (some (.ofCount 0)) []) :=
    ⟨{}, 1, some (.ofCount 0), [], by decide, by rintro d ⟨⟩; decide, rfl⟩
  have h : Runs (.boot {} (.ofCapacity 1) (some (.ofCount 0)) [])
      [(.alloc 0 .anon ⟨4096⟩ true none, _), (.alloc 0 .anon ⟨8192⟩ true none, _),
        (.claim 0 ⟨4096⟩, _), (.claim 0 ⟨8192⟩, _)] _ :=
    .cons trivial (.cons trivial (.cons trivial (.cons trivial (.nil _))))
  obtain ⟨hc, -, -, -, hd⟩ := Runs.pages_conserved h₀ h
  refine ⟨_, _, h, rfl, hc, by decide +kernel, ?_⟩
  refine (hd [(.drop 0 [⟨2⟩, ⟨1⟩], _)] _ (.cons ?_ (.nil _)) ?_).2
  · change [_, _].Perm _
    decide +kernel
  · rintro x hx
    exact ⟨0, [⟨2⟩, ⟨1⟩], List.mem_singleton.mp hx ▸ rfl⟩

end Pager
