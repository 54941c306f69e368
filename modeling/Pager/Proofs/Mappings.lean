import Pager.Proofs.Evolving

namespace Pager

open Step

/-- A mapping of a file, or a copy of one. `calls` are the operation that made it,
at the end, and those that copied it since. -/
structure Mapping where
  calls : List Nat
  space : SpaceId
  start : VirtPage
  count : Nat
deriving DecidableEq

namespace Mapping

variable {M : Mapping} {id : PageId} {k : Nat}

/-- The page has one of the numbers of the mapping, whether it belongs to it or not. -/
def Covers (M : Mapping) (id : PageId) : Prop :=
  id.space = M.space ∧ ∃ i < M.count, id.page = M.start.plus i

def copy (M : Mapping) (n : Nat) (s : SpaceId) : Mapping :=
  { M with calls := n :: M.calls, space := s }

def spanAt (M : Mapping) (v : VirtPage) : Nat := if v = M.start then M.count else 0

def Allots (id : PageId) (k : Nat) : Option Mapping → Prop
  | none => k = 0
  | some M => M.Covers id ∧ k = M.spanAt id.page

theorem covers_iff : M.Covers id ↔
    id.space = M.space ∧ id.page ∈ (List.range M.count).map M.start.plus := by
  simp only [Covers, List.mem_map, List.mem_range, eq_comm]

theorem Covers.copy (h : M.Covers id) (n : Nat) (s : SpaceId) : (M.copy n s).Covers ⟨s, id.page⟩ :=
  ⟨rfl, h.2⟩

theorem Allots.copy {o : Option Mapping} (h : Allots id k o) (n : Nat) (s : SpaceId) :
    Allots ⟨s, id.page⟩ k (o.map (fun M => M.copy n s)) := by
  cases o with
  | none => exact h
  | some M => exact ⟨h.1.copy n s, h.2⟩

end Mapping

namespace Op

/-- The mapping that a page belongs to which the `n`th operation registers. A
copy of a page belongs to the copy of its mapping. -/
def mapping? (n : Nat) (μ : PageId → Option Mapping) (id : PageId) : Op → Option Mapping
  | mmap s a len _ _ _ | mmapDescriptor s a len _ _ _ _ =>
      some ⟨[n], s, a.page, Machine.pagesFor len⟩
  | fork src dst _ _ | copyFrom src dst _ => (μ ⟨src, id.page⟩).map (fun M => M.copy n dst)
  | _ => none

/-- The mappings that pages belong to after the `n`th operation. Those that were
registered before it belong to what they belonged to. -/
def track (n : Nat) (m : Machine) (μ : PageId → Option Mapping) (op : Op) (id : PageId) :
    Option Mapping :=
  if (m.page? id).isSome then μ id else op.mapping? n μ id

end Op

namespace Machine

variable {m t : Machine} {μ : PageId → Option Mapping} {op : Op} {id : PageId} {M : Mapping}
  {s : SpaceId} {a : VirtAddr}

def mappingsFrom (n : Nat) (m : Machine) (μ : PageId → Option Mapping) :
    List (Op × Report) → PageId → Option Mapping
  | [] => μ
  | (op, _) :: trail => mappingsFrom (n + 1) (op.run m).2 (op.track n m μ) trail

def mappings (m₀ : Machine) (trail : List (Op × Report)) : PageId → Option Mapping :=
  mappingsFrom 0 m₀ (fun _ => none) trail

/-- The first page of the mapping has this number and is registered. -/
structure Begins (m : Machine) (μ : PageId → Option Mapping) (id : PageId) (M : Mapping) :
    Prop where
  registered : m.page? id ≠ none
  mapping : μ id = some M
  start : id.page = M.start

/-- All pages of the mapping are gone, and so are others with numbers of it, which
were registered there when its own ones had been removed. -/
structure Unmaps (m : Machine) (μ : PageId → Option Mapping) (M : Mapping) (t : Machine) :
    Prop where
  own : ∀ id, m.page? id ≠ none → μ id = some M → M.Covers id
  gone : ∀ id, M.Covers id → t.page? id = none
  kept : ∀ id, ¬M.Covers id → t.page? id = m.page? id

def Charts (m : Machine) (μ : PageId → Option Mapping) : Prop :=
  ∀ id page, m.page? id = some page → Mapping.Allots id page.span (μ id)

theorem Charts.allots_new (h : m.Charts μ) (hid : op.MayRegister m id) (n : Nat) :
    Mapping.Allots id (op.span m id) (op.mapping? n μ id) := by
  cases op with
  | mmap | mmapDescriptor =>
      obtain ⟨-, -, i, hi, rfl⟩ := hid
      exact ⟨⟨rfl, i, hi, rfl⟩, rfl⟩
  | fork src dst | copyFrom src dst =>
      obtain ⟨rfl, hne⟩ := hid
      obtain ⟨page, hpage⟩ := Option.ne_none_iff_exists'.mp hne
      have hcopy := (h _ page hpage).copy n id.space
      simp only [Op.span, Op.mapping?, hpage, Option.map_some, Option.getD_some]
      exact hcopy
  | _ => rfl

theorem Charts.run (h : m.Charts μ) (hs : m.layout.Sound) (hu : m.layout.Unpinned)
    (ha : op.Admissible m) (n : Nat) : (op.run m).2.Charts (op.track n m μ) := by
  intro id q hq
  have hev := Op.evolves_run hs hu ha
  -- no operation gives a page up and registers it again, so one that was there goes on
  cases hpage : m.page? id with
  | some page =>
      rw [Op.track, hpage, Option.isSome_some, if_pos rfl, (hev.lives id page q hpage hq).span]
      exact h id page hpage
  | none =>
      have hne : (op.run m).2.layout.page id ≠ none :=
        Option.ne_none_iff_exists'.mpr ⟨q, hq⟩
      rw [Op.track, hpage, Option.isSome_none, if_neg Bool.false_ne_true,
        Op.span_run hs hu ha hpage hq]
      exact h.allots_new (hev.new id hpage hne) n

theorem Charts.runs {trail : List (Op × Report)} (hr : Runs m trail t) (hs : m.layout.Sound)
    (hu : m.layout.Unpinned) (h : m.Charts μ) (n : Nat) :
    t.Charts (mappingsFrom n m μ trail) := by
  induction hr generalizing μ n with
  | nil => exact h
  | cons ha _ ih =>
      obtain ⟨cs, hw, -⟩ := Op.goes_run hs hu ha
      exact ih (hs.of_course hw.course) hw.unpinned (h.run hs hu ha n) (n + 1)

theorem charts_of_runs {m₀ : Machine} {trail : List (Op × Report)} (h₀ : Starts m₀)
    (hr : Runs m₀ trail m) : m.Charts (mappings m₀ trail) := by
  refine .runs hr h₀.sound.1 h₀.sound.2 (fun id page hpage => ?_) 0
  obtain ⟨config, k, disk, files, -, -, rfl⟩ := h₀
  have hnone : (boot config (.ofCapacity k) disk files).page? id = none := page_boot ..
  rw [hnone] at hpage
  cases hpage

theorem Charts.span_eq_count (h : m.Charts μ) (hb : m.Begins μ id M) :
    ∃ page, m.page? id = some page ∧ id.space = M.space ∧ page.span = M.count := by
  obtain ⟨page, hpage⟩ := Option.ne_none_iff_exists'.mp hb.registered
  have hallots := h id page hpage
  rw [hb.mapping] at hallots
  obtain ⟨⟨hspace, -⟩, hspan⟩ := hallots
  exact ⟨page, hpage, hspace, hspan.trans (if_pos hb.start)⟩

theorem Charts.covers (h : m.Charts μ) (hid : m.page? id ≠ none) (hM : μ id = some M) :
    M.Covers id := by
  obtain ⟨page, hpage⟩ := Option.ne_none_iff_exists'.mp hid
  have hallots := h id page hpage
  rw [hM] at hallots
  exact hallots.1

theorem Charts.unmaps (h : m.Charts μ) (hs : m.layout.Sound) (hu : m.layout.Unpinned)
    (hb : m.Begins μ ⟨s, a.page⟩ M) : ∃ t, munmap s a m = .ok () t ∧ m.Unmaps μ M t := by
  obtain ⟨page, hpage, hspace, hspan⟩ := h.span_eq_count hb
  obtain rfl : s = M.space := hspace
  obtain ⟨_, t, hx, vs, cs, rfl, -, -, ht⟩ := (munmap_ends hs hu (a := a)).exists_ok
  have hstart : a.page = M.start := hb.start
  rw [show m.layout.page ⟨M.space, a.page⟩ = some page from hpage, Option.map_some,
    Option.getD_some, hspan, hstart] at ht
  refine ⟨t, hx, fun id hne hM => h.covers hne hM, fun id hid => ?_, fun id hid => ?_⟩
  · exact (congrFun ht id).trans (if_pos (Mapping.covers_iff.mp hid))
  · exact (congrFun ht id).trans (if_neg fun hc => hid (Mapping.covers_iff.mpr hc))

theorem Unmaps.page_ne_none_iff (h : m.Unmaps μ M t)
    (hown : ∀ id, M.Covers id → m.page? id ≠ none → μ id = some M) (id : PageId) :
    t.page? id ≠ none ↔ m.page? id ≠ none ∧ μ id ≠ some M := by
  by_cases hid : M.Covers id
  · rw [h.gone id hid]
    exact ⟨fun hne => absurd rfl hne, fun hne => absurd (hown id hid hne.1) hne.2⟩
  · rw [h.kept id hid]
    exact ⟨fun hne => ⟨hne, fun hM => hid (h.own id hne hM)⟩, And.left⟩

theorem Charts.span_eq_zero (h : m.Charts μ) {page : Page} (hpage : m.page? id = some page)
    (hb : ∀ M, ¬m.Begins μ id M) : page.span = 0 := by
  have hallots := h id page hpage
  cases hM : μ id with
  | none =>
      rw [hM] at hallots
      exact hallots
  | some M =>
      rw [hM] at hallots
      refine hallots.2.trans (if_neg fun hstart => hb M ⟨?_, hM, hstart⟩)
      exact Option.ne_none_iff_exists'.mpr ⟨page, hpage⟩

theorem munmap_nothing (h : ∀ page, m.page? ⟨s, a.page⟩ = some page → page.span = 0) :
    ∃ t, munmap s a m = .ok () t ∧ (t = m ∨ t = m.emit (.unmapped 0 a)) := by
  have hends : Ends (munmap s a) m (fun _ t => t = m ∨ t = m.emit (.unmapped 0 a))
      (fun _ _ => False) := by
    simp only [munmap, ends_bind, ends_get, find?]
    cases hpage : m.page? ⟨s, a.page⟩ with
    | none => exact .inl rfl
    | some page =>
        simp only [h page hpage, List.range_zero, removeFrom, ends_bind, ends_pure, ends_note]
        exact .inr trivial
  obtain ⟨_, t, hx, ht⟩ := hends.exists_ok
  exact ⟨t, hx, ht⟩

end Machine

variable {m₀ m : Machine} {trail : List (Op × Report)} {s : SpaceId} {a : VirtAddr}

/-- A mapping, or the copy of one, is taken down at any address in its first
page, with all pages that have its numbers by now. These are its own ones if
none of its numbers was registered anew. -/
theorem Runs.munmap_at_start (h₀ : Starts m₀) (h : Runs m₀ trail m) {M : Mapping}
    (hb : m.Begins (m₀.mappings trail) ⟨s, a.page⟩ M) :
    ∃ t, Machine.munmap s a m = .ok () t ∧ m.Unmaps (m₀.mappings trail) M t ∧
      ((∀ id, M.Covers id → m.page? id ≠ none → m₀.mappings trail id = some M) →
        ∀ id, t.page? id ≠ none ↔ m.page? id ≠ none ∧ m₀.mappings trail id ≠ some M) := by
  obtain ⟨hs, hu⟩ := h.sound h₀.sound.1 h₀.sound.2
  obtain ⟨t, hx, ht⟩ := (Machine.charts_of_runs h₀ h).unmaps hs hu hb
  exact ⟨t, hx, ht, ht.page_ne_none_iff⟩

theorem munmap_at_start_copy :
    ∃ m₀ trail m M, trail.map Prod.fst = [.mmap 0 ⟨8192⟩ 4097 true 0 0,
        .fork 0 1 {} [⟨2⟩, ⟨3⟩], .remove 1 ⟨12288⟩, .alloc 1 .anon ⟨12288⟩ true none] ∧
      M = ⟨[1, 0], 1, ⟨2⟩, 2⟩ ∧ Starts m₀ ∧ Runs m₀ trail m ∧
      m.Begins (m₀.mappings trail) ⟨1, (⟨8197⟩ : VirtAddr).page⟩ M ∧
      ∃ t, Machine.munmap 1 ⟨8197⟩ m = .ok () t ∧ m.Unmaps (m₀.mappings trail) M t ∧
        ((∀ id, M.Covers id → m.page? id ≠ none → m₀.mappings trail id = some M) →
          ∀ id, t.page? id ≠ none ↔ m.page? id ≠ none ∧ m₀.mappings trail id ≠ some M) := by
  have h₀ : Starts (.boot {} (.ofCapacity 1) none [.ofList [7]]) :=
    ⟨{}, 1, none, [.ofList [7]], by decide, by rintro d ⟨⟩, rfl⟩
  generalize hm₀ : Machine.boot {} (.ofCapacity 1) none [.ofList [7]] = m₀ at h₀
  have hkeys : (((Op.mmap 0 ⟨8192⟩ 4097 true 0 0).run m₀).2.pages 0).keys = [⟨2⟩, ⟨3⟩] := by
    rw [← hm₀]
    decide +kernel
  have hchild : (((Op.mmap 0 ⟨8192⟩ 4097 true 0 0).run m₀).2.pages 1).keys = [] := by
    rw [← hm₀]
    decide +kernel
  have hfork : (Op.fork 0 1 {} [⟨2⟩, ⟨3⟩]).Admissible
      ((Op.mmap 0 ⟨8192⟩ 4097 true 0 0).run m₀).2 :=
    ⟨by decide, Machine.page?_eq_none_of_keys hchild, hkeys ▸ .refl _⟩
  have hr : Runs m₀ [(.mmap 0 ⟨8192⟩ 4097 true 0 0, _), (.fork 0 1 {} [⟨2⟩, ⟨3⟩], _),
      (.remove 1 ⟨12288⟩, _), (.alloc 1 .anon ⟨12288⟩ true none, _)] _ :=
    .cons trivial (.cons hfork (.cons trivial (.cons trivial (.nil _))))
  refine ⟨m₀, _, _, ⟨[1, 0], 1, ⟨2⟩, 2⟩, rfl, rfl, h₀, hr, ?hb, Runs.munmap_at_start h₀ hr ?hb⟩
  refine ⟨Option.isSome_iff_ne_none.mp ?_, ?_, rfl⟩
  · rw [← hm₀]
    decide +kernel
  · rw [← hm₀]
    decide +kernel

/-- Anywhere but in the first page of a mapping nothing is taken down. -/
theorem Runs.munmap_elsewhere (h₀ : Starts m₀) (h : Runs m₀ trail m)
    (hb : ∀ M, ¬m.Begins (m₀.mappings trail) ⟨s, a.page⟩ M) :
    ∃ t, Machine.munmap s a m = .ok () t ∧ (t = m ∨ t = m.emit (.unmapped 0 a)) :=
  Machine.munmap_nothing fun _ hpage =>
    (Machine.charts_of_runs h₀ h).span_eq_zero hpage hb

theorem munmap_elsewhere_second_page :
    ∃ m₀ trail m, trail.map Prod.fst = [.mmap 0 ⟨8192⟩ 4097 true 0 0] ∧ Starts m₀ ∧
      Runs m₀ trail m ∧ (∀ M, ¬m.Begins (m₀.mappings trail) ⟨0, (⟨12288⟩ : VirtAddr).page⟩ M) ∧
      ∃ t, Machine.munmap 0 ⟨12288⟩ m = .ok () t ∧ (t = m ∨ t = m.emit (.unmapped 0 ⟨12288⟩)) := by
  have h₀ : Starts (.boot {} (.ofCapacity 1) none [.ofList [7]]) :=
    ⟨{}, 1, none, [.ofList [7]], by decide, by rintro d ⟨⟩, rfl⟩
  generalize hm₀ : Machine.boot {} (.ofCapacity 1) none [.ofList [7]] = m₀ at h₀
  have hr : Runs m₀ [(.mmap 0 ⟨8192⟩ 4097 true 0 0, _)] _ := .cons trivial (.nil _)
  refine ⟨m₀, _, _, rfl, h₀, hr, ?hb, Runs.munmap_elsewhere h₀ hr ?hb⟩
  rintro M ⟨-, hM, hstart⟩
  have hpart : m₀.mappings [(.mmap 0 ⟨8192⟩ 4097 true 0 0,
      ((Op.mmap 0 ⟨8192⟩ 4097 true 0 0).run m₀).1)] ⟨0, (⟨12288⟩ : VirtAddr).page⟩ =
      some ⟨[0], 0, ⟨2⟩, 2⟩ := by
    rw [← hm₀]
    decide +kernel
  obtain rfl := Option.some.inj (hM.symm.trans hpart)
  exact absurd hstart (by decide)

end Pager
