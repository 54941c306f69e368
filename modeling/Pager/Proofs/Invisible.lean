import Pager.Proofs.Flat
import Pager.Proofs.Invariance

namespace Pager

open Step

namespace Layout

variable {l l' : Layout} {id : PageId} {page : Page} {c : Change} {cs : List Change}
  {s src dst : SpaceId} {a sp : VirtAddr} {w : World} {φ : Flat}

theorem flat_loaded (hφ : ∃ b, φ id = some (page.content.cell b)) (h : Loads id page w cs) :
    Flat.Loaded w φ id (cs.foldl (fun φ c => c.apply φ) φ) := by
  obtain ⟨b, hφ⟩ := hφ
  cases h with
  | hidden hc =>
      cases hcont : page.content with
      | unloaded kind loader span =>
          cases kind with
          | anon => exact absurd hcont (hc loader span)
          | file => exact .file span (by rw [hφ, hcont]; rfl)
      | anon slot => exact .bytes b (by rw [hφ, hcont]; rfl)
      | file g span dirty => exact .file span (by rw [hφ, hcont]; rfl)
  | load loader span b' hc hb => exact .pending loader b' (by rw [hφ, hc]; rfl) hb

theorem flat_loaded_of_entry (hs : l.Sound) (he : l.entry id ≠ none) :
    Flat.Loaded w l.cell id l.cell := by
  obtain ⟨e, he⟩ := Option.ne_none_iff_exists'.mp he
  obtain ⟨page, f, hpage, hf, -⟩ := hs.entries id e he
  exact flat_loaded ⟨_, cell_eq page hpage⟩ (.of_frame (hs.coherent hpage) hf)

theorem cell_of_stack (h : Loads id .stack w cs) :
    cs.foldl (fun φ c => c.apply φ) (Change.apply (.register id .stack) φ) =
      Function.update φ id (some (.bytes (Bytes.zero pageSize))) := by
  cases h with
  | hidden hc => exact absurd rfl (hc none 0)
  | load loader span b hc hb =>
      obtain ⟨rfl, rfl⟩ : none = loader ∧ 0 = span := by
        simpa [Page.stack] using hc
      obtain rfl : b = Bytes.zero pageSize := hb
      simp only [List.foldl_cons, List.foldl_nil, Change.apply, Function.update_idem]

theorem flat_touched (h : l.Opens s a sp w cs) :
    Flat.Touched l.config s a sp w l.cell (cs.foldl (fun φ c => c.apply φ) l.cell) := by
  cases h with
  | there page _ hpage h => exact .there (flat_loaded ⟨_, cell_eq page hpage⟩ h)
  | grown cs hpage hg h =>
      rw [List.foldl_cons, cell_of_stack h]
      exact .grown (cell_eq_none.mpr hpage) hg

theorem flat_balked (h : l.Balks s a sp cs) :
    Flat.Balked l.config s a sp l.cell (cs.foldl (fun φ c => c.apply φ) l.cell) := by
  cases h with
  | same => exact .same
  | grown hpage hg => exact .grown (cell_eq_none.mpr hpage) hg

theorem flat_writes {k : Nat} {data : List UInt8} {ps : List (Piece × World)} {e : Option Failure}
    (h : Writes s a sp k data ps e l l') (hs : l.Sound) :
    Flat.Writes l.config s a sp k data (ps.map Prod.snd) e l.cell l'.cell := by
  induction h with
  | done => exact .done
  | overflow hd ha => exact .overflow hd ha
  | stops hd ha he hb hw =>
      rw [cell_of_course hs hw.course]
      exact .stops hd ha (flat_balked hb)
  | piece hd ha hn ho hw ht ih =>
      have ih := ih (hs.of_course hw.course)
      rw [config_of_course hw.course, cell_of_course hs hw.course, List.foldl_append] at ih
      exact .piece hd ha hn (flat_touched ho) ih

theorem flat_reads {k len : Nat} {ws : List World} {bs : List UInt8} {e : Option Failure}
    (h : Reads s a sp k len ws bs e l l') (hs : l.Sound) :
    Flat.Reads l.config s a sp k len ws bs e l.cell l'.cell := by
  induction h with
  | done => exact .done
  | overflow hd ha => exact .overflow hd ha
  | stops hd ha he hb hw =>
      rw [cell_of_course hs hw.course]
      exact .stops hd ha (flat_balked hb)
  | @piece k n len ws bs e l l₁ l' cur cs page f p hd ha hn ho hw hin ht ih =>
      have hs₁ := hs.of_course hw.course
      have hcell := cell_of_course hs hw.course
      have ih := ih hs₁
      rw [config_of_course hw.course] at ih
      have htouched := flat_touched ho
      rw [← hcell] at htouched
      refine .piece hd ha hn htouched ?_ (fun b hb => ?_) ih
      · have : n ≤ pageSize - cur.offset := hn ▸ Nat.min_le_left _ _
        rw [Bytes.length_slice]
        omega
      · have hheld := held?_of_cell hs₁ hb
        rw [held?_inFrame hin] at hheld
        rw [Option.some.inj hheld]

theorem cell_of_gone (hs : l.Sound) (hm : l.Course cs l') {P : PageId → Prop} [DecidablePred P]
    (hcs : ∀ c ∈ cs, P c.target) (hp : l'.page = fun id => if P id then none else l.page id) :
    l'.cell = fun id => if P id then none else l.cell id := by
  funext id
  split
  next h =>
    rw [cell_eq_none, hp]
    exact if_pos h
  next h =>
    apply cell_of_course_other hs hm
    rintro c hc rfl
    exact h (hcs c hc)

theorem cell_of_emptied (hs : l.Sound) (hm : l.Course cs l')
    (hcs : ∀ c ∈ cs, ∃ v, c = .destroy ⟨s, v⟩)
    (hp : l'.page = fun id => if id.space = s then none else l.page id) :
    l'.cell = Flat.emptied l.cell s := by
  refine cell_of_gone hs hm (fun c hc => ?_) hp
  obtain ⟨v, rfl⟩ := hcs c hc
  rfl

theorem span_cell (hs : l.Sound) (id : PageId) :
    ((l.cell id).map Cell.span).getD 0 = ((l.page id).map Page.span).getD 0 := by
  cases hpage : l.page id with
  | none => rw [cell_eq_none.mpr hpage]; rfl
  | some page =>
      have hh := hs.pages id page hpage
      rw [cell_eq page hpage]
      cases hc : page.content with
      | unloaded kind loader span =>
          cases kind with
          | anon => exact (hh.anon (by rw [Page.kind, hc])).symm
          | file => simp [Content.cell, Cell.span, Page.span, hc]
      | anon slot => simp [Content.cell, Cell.span, Page.span, hc]
      | file g span dirty => simp [Content.cell, Cell.span, Page.span, hc]

theorem cell_of_copies {vs : List VirtPage} (hs : l.Sound)
    (hvs : ∀ v, v ∈ vs ↔ l.page ⟨src, v⟩ ≠ none) (h : l.Copies src dst vs cs l') :
    l'.cell = Flat.copied l.cell src dst := by
  funext id
  obtain ⟨s, v⟩ := id
  unfold Flat.copied
  split
  next hc =>
    obtain ⟨rfl, hsome⟩ := hc
    have hpage : l.page ⟨src, v⟩ ≠ none := fun hnone => by
      simp [cell_eq_none.mpr hnone] at hsome
    exact h.cells v ((hvs v).mpr hpage) hpage
  next hc =>
    refine h.cell_other hs _ fun hd hv => absurd ⟨hd, ?_⟩ hc
    rw [Option.isSome_iff_ne_none, ne_eq, cell_eq_none]
    exact (hvs v).mp hv

theorem flat_copiedInPart {vs : List VirtPage} (hs : l.Sound)
    (hvs : ∀ v, v ∈ vs ↔ l.page ⟨src, v⟩ ≠ none) (h : l.Adds src dst vs cs l') :
    Flat.CopiedInPart l.cell src dst l'.cell := by
  intro id
  by_cases hid : ∃ c ∈ cs, id = c.target
  · obtain ⟨c, hc, rfl⟩ := hid
    obtain ⟨hd, hv, hn⟩ := h.new c hc
    refine .inr ⟨hd, cell_eq_none.mpr hn, ?_⟩
    rw [Option.isSome_iff_ne_none, ne_eq, cell_eq_none]
    exact (hvs _).mp hv
  · exact .inl (cell_of_course_other hs h.course.course fun c hc he => hid ⟨c, hc, he⟩)

theorem cell_of_undoes (hs : l.Sound) (h : l.Undoes dst cs l') :
    l'.cell = Flat.emptied l.cell dst := by
  funext id
  unfold Flat.emptied
  split
  next hid =>
    obtain ⟨s, v⟩ := id
    subst hid
    exact cell_eq_none.mpr (h.vacant v)
  next hid =>
    apply cell_of_course_other hs h.course.course
    rintro c hc rfl
    exact hid (h.within c hc)

end Layout

namespace Op

variable {m : Machine} {op : Op} {s : SpaceId} {a sp : VirtAddr}

/-- A step does to the cells what the operation does to the reference memory. -/
def Follows {α : Type} (m : Machine) (op : Op) (x : Step Machine α) : Prop :=
  Ends x m
    (fun _ t => Flat.Next m.config m.layout.cell op { worlds := [t.world] } t.layout.cell)
    (fun e t => Flat.Next m.config m.layout.cell op { failure := some e, worlds := [t.world] }
      t.layout.cell)

theorem Follows.perform {α : Type} {x : Step Machine α} (h : Follows m op x) :
    Flat.Next m.config m.layout.cell op (Machine.perform x m).1
      (Machine.perform x m).2.layout.cell :=
  Machine.perform_ends (Q := fun r t => Flat.Next m.config m.layout.cell op r t.layout.cell) h

theorem next_silent {t : Machine} (ho : op.Silent) (ht : t.layout = m.layout) :
    Flat.Next m.config m.layout.cell op { worlds := [t.world] } t.layout.cell := by
  rw [ht]
  exact .silent ho rfl

theorem next_refused {e : Failure} {t : Machine} (ho : op.AllOrNothing)
    (ht : t.layout.cell = m.layout.cell) :
    Flat.Next m.config m.layout.cell op { failure := some e, worlds := [t.world] }
      t.layout.cell := by
  rw [ht]
  exact .refused ho rfl

theorem follows_fork {parent child : SpaceId} {refusals : Trap} {order : List VirtPage}
    (hs : m.layout.Sound) (hu : m.layout.Unpinned)
    (ha : (fork parent child refusals order).Admissible m) :
    Follows m (.fork parent child refusals order)
      (Machine.forkInOrder parent child refusals order) := by
  obtain ⟨hne, hv, ho⟩ := ha
  have hnodup := Machine.nodup_of_perm_keys ho
  apply (Machine.forkInOrder_ends hs hu hne hnodup hv refusals).mono
  · intro _ t h
    obtain ⟨cs, h⟩ := h
    rw [Layout.cell_of_copies hs (mem_order ho) h]
    exact .fork rfl
  · intro e t h
    obtain ⟨-, cs, h⟩ := h
    refine next_refused trivial ?_
    rw [Layout.cell_of_undoes hs h]
    funext id
    unfold Flat.emptied
    split
    next hid =>
      subst hid
      exact (Layout.cell_eq_none.mpr (hv id.page)).symm
    next => rfl

theorem follows_copyFrom {src dst : SpaceId} {order : List VirtPage} (hs : m.layout.Sound)
    (hu : m.layout.Unpinned) (ha : (copyFrom src dst order).Admissible m) :
    Follows m (.copyFrom src dst order) (Machine.copyInOrder src dst order) := by
  obtain ⟨hne, ho⟩ := ha
  apply (Machine.copyInOrder_ends hs hu hne (Machine.nodup_of_perm_keys ho)).mono
  · intro _ t h
    obtain ⟨cs, h⟩ := h
    rw [Layout.cell_of_copies hs (mem_order ho) h]
    exact .copyFrom rfl
  · rintro e t ⟨-, cs, h⟩
    exact .copyFromFails rfl (Layout.flat_copiedInPart hs (mem_order ho) h)

theorem follows_alloc {type : PageType} {writable : Bool} {loader : Option Loader}
    (hs : m.layout.Sound) :
    Follows m (.alloc s type a writable loader) (Machine.alloc s type a writable loader) := by
  apply Machine.alloc_ends.mono
  · intro _ t h
    obtain ⟨kind, rfl, hd⟩ := h
    rw [Layout.cell_of_step hs hd, Change.apply, Flat.cell_unloaded]
    exact .alloc rfl (Layout.cell_eq_none.mpr hd.of_register.1)
  · intro e t h
    obtain ⟨-, ht⟩ := h
    exact next_refused trivial (by rw [ht])

theorem follows_claim (hs : m.layout.Sound) (hu : m.layout.Unpinned) :
    Follows m (.claim s a) (Machine.claim s a) := by
  apply (Machine.claim_ends hs hu).mono
  · intro _ t h
    obtain ⟨page, cs, hpage, hc, -⟩ := h
    refine .claim rfl rfl ?_
    rw [Layout.cell_of_course hs hc.course]
    rcases hc.loads with hloads | ⟨rfl, hne⟩
    · exact Layout.flat_loaded ⟨_, Layout.cell_eq page hpage⟩ hloads
    · exact Layout.flat_loaded_of_entry hs hne
  · intro e t h
    obtain ⟨-, h⟩ := h
    exact next_refused trivial (Layout.cell_of_rearranged hs h.reach)

theorem follows_fault {flags : FaultFlags} (hs : m.layout.Sound) (hu : m.layout.Unpinned) :
    Follows m (.fault s a flags sp) (Machine.handleFault s a flags sp) := by
  apply (Machine.handleFault_ends hs hu).mono
  · intro _ t h
    obtain ⟨-, cs, hf, hw, -⟩ := h
    refine .fault rfl rfl ?_
    rw [Layout.cell_of_course hs hw.course]
    rcases hf with hopen | ⟨rfl, hne⟩
    · exact Layout.flat_touched hopen
    · exact .there (Layout.flat_loaded_of_entry hs hne)
  · intro e t h
    obtain ⟨-, cs, hb, hw⟩ := h
    rw [Layout.cell_of_course hs hw.course]
    exact .faultFails rfl (Layout.flat_balked hb)

theorem follows_setUpStack (hs : m.layout.Sound) (hu : m.layout.Unpinned) :
    Follows m (.setUpStack s) (Machine.setUpStack s) := by
  apply (Machine.setUpStack_ends hs hu).mono
  · intro _ t h
    obtain ⟨a, l, cs, htop, hd, hc, -⟩ := h
    have hnone := Layout.cell_eq_none.mpr hd.of_register.1
    rw [Layout.cell_of_course (hs.of_step hd) hc.course, Layout.cell_of_step hs hd,
      Layout.cell_of_stack (hc.loads_new hs hd)]
    exact .setUpStack rfl htop hnone
  · intro e t h
    obtain ⟨-, hw | ⟨a, htop, hnone, hw⟩⟩ := h
    · rw [Layout.cell_of_course hs hw.course]
      exact .setUpStackFails rfl
    · rw [Layout.cell_of_course hs hw.course]
      exact .setUpStackStops rfl htop (Layout.cell_eq_none.mpr hnone)

theorem cell_of_mapped {len offset : Nat} {writable : Bool} {file : FileId} {l : Layout}
    (hs : m.layout.Sound)
    (hw : m.layout.UnpinnedCourse ((List.range (Machine.pagesFor len)).map (fun i =>
      .register ⟨s, a.page.plus i⟩
        (Machine.mappedPages (m.layout.data file) len writable file offset i))) l) :
    l.cell = Flat.mapped m.layout.cell s a.page (Machine.pagesFor len) := by
  rw [Layout.cell_of_course hs hw.course, List.foldl_map]
  rfl

theorem follows_mmap {len offset : Nat} {writable : Bool} {file : FileId} (hs : m.layout.Sound)
    (hu : m.layout.Unpinned) :
    Follows m (.mmap s a len writable file offset)
      (Machine.mmap s a len writable file offset) := by
  apply (Machine.mmap_ends hu).mono
  · intro r t h
    obtain ⟨-, hn, hw⟩ := h
    rw [cell_of_mapped hs hw]
    exact .mmap rfl fun i hi => Layout.cell_eq_none.mpr (hn i hi)
  · intro e t h
    obtain ⟨-, ht⟩ := h
    exact next_refused trivial (by rw [ht])

theorem follows_mmapDescriptor {len fd offset : Nat} {writable : Bool} {fds : Descriptors}
    (hs : m.layout.Sound) (hu : m.layout.Unpinned) :
    Follows m (.mmapDescriptor s a len writable fd fds offset)
      (Machine.mmapDescriptor s a len writable fd fds offset) := by
  apply (Machine.mmapDescriptor_ends hu).mono
  · intro r t h
    obtain ⟨file, -, -, hn, hw⟩ := h
    rw [cell_of_mapped hs hw]
    exact .mmapDescriptor rfl fun i hi => Layout.cell_eq_none.mpr (hn i hi)
  · intro e t h
    obtain ⟨-, ht⟩ := h
    exact next_refused trivial (by rw [ht])

theorem follows_munmap (hs : m.layout.Sound) (hu : m.layout.Unpinned) :
    Follows m (.munmap s a) (Machine.munmap s a) := by
  refine (Machine.munmap_ends hs hu).mono ?_ fun _ _ h => h.elim
  intro _ t h
  obtain ⟨vs, cs, rfl, hcs, hw, hp⟩ := h
  rw [Layout.cell_of_gone hs hw.course (fun c hc => ?_) hp, ← Layout.span_cell hs]
  · exact .munmap rfl
  · obtain ⟨v, hv, rfl⟩ := hcs c hc
    exact ⟨rfl, hv⟩

theorem follows_remove (hs : m.layout.Sound) (hu : m.layout.Unpinned) :
    Follows m (.remove s a) (Machine.remove s a) := by
  refine (Machine.removePage_ends hs hu).mono ?_ fun _ _ h => h.elim
  intro _ t h
  obtain ⟨cs, hcs, hw, hp⟩ := h
  have hgone := Layout.cell_of_gone (P := fun id => id = ⟨s, a.page⟩) hs hw.course
    (fun c hc => by rw [hcs c hc]; rfl) (by rw [hp]; funext id; exact Function.update_apply ..)
  have hcell : t.layout.cell = Function.update m.layout.cell ⟨s, a.page⟩ none := by
    rw [hgone]
    funext id
    exact (Function.update_apply ..).symm
  rw [hcell]
  exact .remove rfl

theorem next_of_run (hs : m.layout.Sound) (hu : m.layout.Unpinned) (ha : op.Admissible m) :
    Flat.Next m.config m.layout.cell op (op.run m).1 (op.run m).2.layout.cell := by
  cases op with
  | create s t => exact Follows.perform (next_silent trivial (Machine.layout_create hs ha t))
  | refuse s t =>
      exact Follows.perform (next_silent trivial (Machine.layout_setSpace_same m rfl rfl))
  | armDisk reads writes =>
      exact Follows.perform (next_silent trivial (layout_armDisk m reads writes))
  | armFile file =>
      exact Follows.perform (next_silent trivial (Machine.layout_withFile_same m rfl))
  | drop s order =>
      refine Follows.perform ((Machine.dropInOrder_ends hs hu ha).mono ?_ fun _ _ h => h.elim)
      intro _ t h
      obtain ⟨cs, hcs, hw, hp⟩ := h
      rw [Layout.cell_of_emptied hs hw.course hcs hp]
      exact .drop rfl
  | kill s order =>
      refine Follows.perform ((Machine.killInOrder_ends hs hu ha).mono ?_ fun _ _ h => h.elim)
      intro _ t h
      obtain ⟨cs, hcs, hw, hp⟩ := h
      rw [Layout.cell_of_emptied hs hw.course hcs hp]
      exact .kill rfl
  | fork => exact (follows_fork hs hu ha).perform
  | copyFrom => exact (follows_copyFrom hs hu ha).perform
  | alloc => exact (follows_alloc hs).perform
  | claim => exact (follows_claim hs hu).perform
  | fault => exact (follows_fault hs hu).perform
  | setUpStack => exact (follows_setUpStack hs hu).perform
  | read s a len sp =>
      apply Machine.performRead_ends (Q := fun r t => Flat.Next m.config m.layout.cell _ r
        t.layout.cell) hs hu len
      intro e bs t h
      exact .read (Layout.flat_reads h hs)
  | write s a data sp =>
      apply Machine.performWrite_ends (Q := fun r t => Flat.Next m.config m.layout.cell _ r
        t.layout.cell) hs hu data
      intro e t h
      exact .write (Layout.flat_writes h hs)
  | mmap => exact (follows_mmap hs hu).perform
  | mmapDescriptor => exact (follows_mmapDescriptor hs hu).perform
  | munmap => exact (follows_munmap hs hu).perform
  | remove => exact (follows_remove hs hu).perform

end Op

theorem Runs.flat {m m' : Machine} {trail : List (Op × Report)} (h : Runs m trail m')
    (hs : m.layout.Sound) (hu : m.layout.Unpinned) :
    Flat.Runs m.config m.layout.cell trail m'.layout.cell := by
  induction h with
  | nil m => exact .nil _
  | @cons m t op trail ha _ ih =>
      obtain ⟨cs, hw, -⟩ := Op.goes_run hs hu ha
      have ih := ih (hs.of_course hw.course) hw.unpinned
      rw [Op.config_run hs hu ha] at ih
      exact .cons (Op.next_of_run hs hu ha) ih

theorem Starts.cell {m : Machine} (h : Starts m) : m.layout.cell = fun _ => none := by
  obtain ⟨config, n, disk, files, -, -, rfl⟩ := h
  funext id
  exact Layout.cell_eq_none.mpr (Machine.page_boot config _ disk files id)

/-- Frames, slots and files come and go unseen: every run is a run of the
reference memory, with the same outcomes and the same bytes read, and the pages
hold at its end what they hold there. -/
theorem Runs.paging_invisible {m₀ m : Machine} {trail : List (Op × Report)} (h₀ : Starts m₀)
    (h : Runs m₀ trail m) : Flat.Runs m₀.config (fun _ => none) trail m.layout.cell := by
  rw [← h₀.cell]
  exact h.flat h₀.sound.1 h₀.sound.2

theorem paging_invisible_two_pages_one_frame :
    ∃ r₁ r₂ r₃ r₄ r₅ m, Runs (.boot {} (.ofCapacity 1) (some (.ofCount 16)) [])
        [(.alloc 0 .anon ⟨4096⟩ true none, r₁), (.write 0 ⟨4096⟩ [1, 2, 3] ⟨0⟩, r₂),
          (.alloc 0 .anon ⟨8192⟩ true none, r₃), (.claim 0 ⟨8192⟩, r₄),
          (.read 0 ⟨4096⟩ 3 ⟨0⟩, r₅)] m ∧
      (∀ r ∈ [r₁, r₂, r₃, r₄, r₅], r.failure = none) ∧ r₅.bytes = [1, 2, 3] ∧
      Flat.Runs {} (fun _ => none)
        [(.alloc 0 .anon ⟨4096⟩ true none, r₁), (.write 0 ⟨4096⟩ [1, 2, 3] ⟨0⟩, r₂),
          (.alloc 0 .anon ⟨8192⟩ true none, r₃), (.claim 0 ⟨8192⟩, r₄),
          (.read 0 ⟨4096⟩ 3 ⟨0⟩, r₅)] m.layout.cell := by
  have h₀ : Starts (.boot {} (.ofCapacity 1) (some (.ofCount 16)) []) :=
    ⟨{}, 1, some (.ofCount 16), [], by decide, by rintro d ⟨⟩; decide, rfl⟩
  have h : Runs (.boot {} (.ofCapacity 1) (some (.ofCount 16)) [])
      [(.alloc 0 .anon ⟨4096⟩ true none, _), (.write 0 ⟨4096⟩ [1, 2, 3] ⟨0⟩, _),
        (.alloc 0 .anon ⟨8192⟩ true none, _), (.claim 0 ⟨8192⟩, _), (.read 0 ⟨4096⟩ 3 ⟨0⟩, _)] _ :=
    .cons trivial (.cons trivial (.cons trivial (.cons trivial (.cons trivial (.nil _)))))
  have hflat := Runs.paging_invisible h₀ h
  refine ⟨_, _, _, _, _, _, h, ?hr, hflat.read_back ?hr ?_ ?_ ?_, hflat⟩
  case hr => decide +kernel
  all_goals decide

end Pager
