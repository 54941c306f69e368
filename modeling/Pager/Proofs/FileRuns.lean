import Pager.Proofs.Keeping

namespace Pager

open Step

namespace Op

/-- Operations after which a file has changed only by what programs wrote to
its pages. -/
def ThroughPages : Op → Prop
  | fork _ _ _ _ | copyFrom _ _ _ | claim _ _ | fault _ _ _ _ | setUpStack _ => False
  | _ => True

/-- The page is one of those that the operation gives up. -/
def Releases (m : Machine) (id : PageId) : Op → Prop
  | munmap s a => id.space = s ∧
      ∃ i < ((m.page? ⟨s, a.page⟩).map Page.span).getD 0, id.page = a.page.plus i
  | remove s a => id = ⟨s, a.page⟩
  | kill s _ | drop s _ => id.space = s
  | _ => False

end Op

namespace Machine

variable (m : Machine)

def segment? (id : PageId) : Option Segment := (m.page? id).bind Page.segment?

def Apart : Prop :=
  ∀ id id' g g' f i, m.segment? id = some g → m.segment? id' = some g' → g.Covers f i →
    g'.Covers f i → id = id'

def fileByte? (f : FileId) (i : Nat) : Option UInt8 := (m.files.get f).data[i]?

def current? (page : Page) (g : Segment) (i : Nat) : Option UInt8 :=
  match page.frame? with
  | some f => (m.frames.get? f).bind (fun fr => (m.ram.bytes fr.page)[i - g.offset]?)
  | none => m.fileByte? g.file i

/-- The byte that is due, after a run from `m`. -/
def due (ρ : Ledger) (f : FileId) (i : Nat) : Option UInt8 := (ρ f i).or (m.fileByte? f i)

/-- Nothing that was written to the files' pages since `m₀` is lost, and nothing
went elsewhere. -/
structure FilesKept (m₀ : Machine) (ρ : Ledger) : Prop where
  covered : ∀ id page g i, m.page? id = some page → page.segment? = some g → g.Covers g.file i →
    m.current? page g i = m₀.due ρ g.file i
  uncovered : ∀ f i, (∀ id g, m.segment? id = some g → ¬g.Covers f i) →
    m.fileByte? f i = m₀.due ρ f i
  untouched : ∀ f i, ρ f i = none → m.fileByte? f i = m₀.fileByte? f i
  size : ∀ f, (m.files.get f).data.size = (m₀.files.get f).data.size

end Machine

/-- Runs in which files change through their pages only, no two pages share a
byte of a file between operations, and no page that is given up loses what was
written to it. The ledger has what the run wrote. -/
inductive FileRuns (m₀ : Machine) : Ledger → Machine → Prop
  | nil : FileRuns m₀ (fun _ _ => none) m₀
  | snoc {ρ : Ledger} {m : Machine} {op : Op} (h : FileRuns m₀ ρ m) (ho : op.ThroughPages)
      (ha : op.Admissible m) (hd : (op.run m).2.Apart) (hl : (op.run m).2.losses = m.losses) :
      FileRuns m₀ (ρ.notes m.segment? (op.run m).1.stored) (op.run m).2

namespace Op

variable {m t : Machine} {op : Op} {cs : List Change} {id : PageId} {ρ : Ledger}
  {o : FileId → Array UInt8}

/-- What was kept is kept on, unless it was lost or two pages came to share a byte. -/
def Keeps (m t : Machine) : Prop :=
  ∀ o ρ, Layout.Kept o ρ m.layout → t.layout.Apart → t.layout.lost = m.layout.lost →
    Layout.Kept o ρ t.layout

theorem keeps_same (ht : t.layout = m.layout) : Keeps m t := by
  intro o ρ h _ _
  rwa [ht]

theorem keeps_bare (hs : m.layout.Sound) (ha : m.layout.Apart) (hw : m.layout.Course cs t.layout)
    (hcs : ∀ c ∈ cs, c.Quiet ∧ c.Bare) : Keeps m t :=
  fun _ _ h _ hl => h.of_bare hs ha hw hcs hl

theorem keeps_lasting (hs : m.layout.Sound) (hw : m.layout.Course cs t.layout)
    (hcs : ∀ c ∈ cs, c.Quiet ∧ c.Lasting) : Keeps m t :=
  fun _ _ h ha _ => h.of_lasting hs hw hcs ha

theorem keeps_perform {α : Type} {x : Step Machine α}
    (h : Ends x m (fun _ t => Keeps m t) (fun _ t => Keeps m t))
    (hk : Layout.Kept o ρ m.layout) (hd : (Machine.perform x m).2.layout.Apart)
    (hl : (Machine.perform x m).2.layout.lost = m.layout.lost) :
    Layout.Kept o (ρ.notes m.layout.segment? (Machine.perform x m).1.stored)
      (Machine.perform x m).2.layout := by
  have h := Machine.perform_ends (Q := fun r t => r.stored = [] ∧ Keeps m t)
    (h.mono (fun _ _ h => ⟨rfl, h⟩) fun _ _ h => ⟨rfl, h⟩)
  rw [h.1]
  exact h.2 o ρ hk hd hl

def Gives (m : Machine) (op : Op) (t : Machine) : Prop :=
  ∃ cs, (∀ c ∈ cs, ∃ id, c = .destroy id) ∧ m.layout.Course cs t.layout ∧
    ∀ id, op.Releases m id → t.layout.page id = none

theorem destroy_changes (hcs : ∀ c ∈ cs, ∃ id, c = .destroy id) :
    ∀ c ∈ cs, c.Quiet ∧ c.Bare := by
  intro c hc
  obtain ⟨id, rfl⟩ := hcs c hc
  exact ⟨trivial, trivial⟩

theorem Gives.keeps (h : Gives m op t) (hs : m.layout.Sound) (ha : m.layout.Apart) : Keeps m t := by
  obtain ⟨cs, hcs, hc, -⟩ := h
  exact keeps_bare hs ha hc (destroy_changes hcs)

theorem Gives.bare (h : Gives m op t) {g : Segment} (hg : t.layout.segment? id = some g) :
    m.layout.segment? id = some g := by
  obtain ⟨cs, hcs, hc, -⟩ := h
  refine hc.preserves (P := fun k => k.segment? id = some g → m.layout.segment? id = some g)
    (fun hg => hg) ?_ ?_ hg
  · intro a b hab h hg
    rw [Layout.segment?_of_hidden hab] at hg
    exact h hg
  · intro a b c hmem hab h hg
    exact h (Layout.segment?_of_bare hab (destroy_changes hcs c hmem).2 hg)

variable {s : SpaceId} {a : VirtAddr} {order : List VirtPage}

theorem gives_munmap (hs : m.layout.Sound) (hu : m.layout.Unpinned) :
    Ends (Machine.munmap s a) m (fun _ t => Gives m (.munmap s a) t) (fun _ _ => False) := by
  refine (Machine.munmap_ends hs hu).mono ?_ fun _ _ h => h
  intro _ t h
  obtain ⟨vs, cs, hvs, hcs, hw, hp⟩ := h
  refine ⟨cs, fun c hc => ?_, hw.course, ?_⟩
  · obtain ⟨v, -, rfl⟩ := hcs c hc
    exact ⟨_, rfl⟩
  · intro id h
    obtain ⟨hspace, i, hi, hpage⟩ := h
    rw [hp]
    refine if_pos ⟨hspace, ?_⟩
    rw [hvs, hpage]
    exact List.mem_map_of_mem (List.mem_range.mpr hi)

theorem gives_remove (hs : m.layout.Sound) (hu : m.layout.Unpinned) :
    Ends (Machine.remove s a) m (fun _ t => Gives m (.remove s a) t) (fun _ _ => False) := by
  refine (Machine.removePage_ends hs hu).mono ?_ fun _ _ h => h
  intro _ t h
  obtain ⟨cs, hcs, hw, hp⟩ := h
  refine ⟨cs, fun c hc => ⟨_, hcs c hc⟩, hw.course, ?_⟩
  rintro id rfl
  rw [hp]
  exact Function.update_self ..

theorem gives_space {x : Step Machine Unit} (ho : ∀ id, op.Releases m id → id.space = s)
    (h : Ends x m (fun _ t => ∃ cs, (∀ c ∈ cs, ∃ v, c = .destroy ⟨s, v⟩) ∧
      m.layout.UnpinnedCourse cs t.layout ∧
      t.layout.page = fun id => if id.space = s then none else m.layout.page id)
      (fun _ _ => False)) :
    Ends x m (fun _ t => Gives m op t) (fun _ _ => False) := by
  refine h.mono ?_ fun _ _ h => h
  intro _ t h
  obtain ⟨cs, hcs, hw, hp⟩ := h
  refine ⟨cs, fun c hc => ?_, hw.course, fun id hid => ?_⟩
  · obtain ⟨v, rfl⟩ := hcs c hc
    exact ⟨_, rfl⟩
  · rw [hp]
    exact if_pos (ho id hid)

theorem gives_kill (hs : m.layout.Sound) (hu : m.layout.Unpinned)
    (ha : (kill s order).Admissible m) :
    Ends (Machine.killInOrder s order) m (fun _ t => Gives m (.kill s order) t)
      (fun _ _ => False) :=
  gives_space (fun _ hid => hid) (Machine.killInOrder_ends hs hu ha)

theorem gives_drop (hs : m.layout.Sound) (hu : m.layout.Unpinned)
    (ha : (drop s order).Admissible m) :
    Ends (do Machine.killInOrder s order; modify (Machine.setSpace s default) : Step Machine Unit) m
      (fun _ t => Gives m (.drop s order) t) (fun _ _ => False) :=
  gives_space (fun _ hid => hid) (Machine.dropInOrder_ends hs hu ha)

theorem gives_run (hs : m.layout.Sound) (hu : m.layout.Unpinned) (ha : op.Admissible m)
    (hr : op.Releases m id) : Gives m op (op.run m).2 := by
  have hperform {α : Type} {x : Step Machine α}
      (h : Ends x m (fun _ t => Gives m op t) (fun _ _ => False)) :
      Gives m op (Machine.perform x m).2 :=
    Machine.perform_ends (Q := fun _ t => Gives m op t)
      (h.mono (fun _ _ h => h) fun _ _ h => h.elim)
  cases op with
  | munmap s a => exact hperform (gives_munmap hs hu)
  | remove s a => exact hperform (gives_remove hs hu)
  | kill s order => exact hperform (gives_kill hs hu ha)
  | drop s order => exact hperform (gives_drop hs hu ha)
  | _ => exact hr.elim

theorem kept_of_run (hs : m.layout.Sound) (hu : m.layout.Unpinned) (ha : op.Admissible m)
    (ho : op.ThroughPages) (happ : m.layout.Apart) (hd : (op.run m).2.layout.Apart)
    (hl : (op.run m).2.layout.lost = m.layout.lost) (h : Layout.Kept o ρ m.layout) :
    Layout.Kept o (ρ.notes m.layout.segment? (op.run m).1.stored) (op.run m).2.layout := by
  have hgive {α : Type} {x : Step Machine α} {op : Op}
      (hx : Ends x m (fun _ t => Gives m op t) (fun _ _ => False)) :
      Ends x m (fun _ t => Keeps m t) (fun _ t => Keeps m t) :=
    hx.mono (fun _ _ hg => hg.keeps hs happ) fun _ _ hf => hf.elim
  cases op with
  | fork | copyFrom | claim | fault | setUpStack => exact ho.elim
  | create s t => exact keeps_perform (keeps_same (Machine.layout_create hs ha t)) h hd hl
  | refuse s t => exact keeps_perform (keeps_same (Machine.layout_setSpace_same m rfl rfl)) h hd hl
  | armDisk reads writes => exact keeps_perform (keeps_same (layout_armDisk m reads writes)) h hd hl
  | armFile file => exact keeps_perform (keeps_same (Machine.layout_withFile_same m rfl)) h hd hl
  | munmap s a => exact keeps_perform (hgive (gives_munmap hs hu)) h hd hl
  | remove s a => exact keeps_perform (hgive (gives_remove hs hu)) h hd hl
  | kill s order => exact keeps_perform (hgive (gives_kill hs hu ha)) h hd hl
  | drop s order => exact keeps_perform (hgive (gives_drop hs hu ha)) h hd hl
  | alloc s type a writable loader =>
      refine keeps_perform (Machine.alloc_ends.mono ?_ fun e t h => keeps_same h.2) h hd hl
      intro _ t h
      obtain ⟨kind, -, hdoes⟩ := h
      exact keeps_lasting hs (.single hdoes) (by simp [Change.Quiet, Change.Lasting])
  | mmap s a len writable file offset =>
      refine keeps_perform ((Machine.mmap_ends hu).mono ?_ fun e t h => keeps_same h.2) h hd hl
      intro r t h
      obtain ⟨-, -, hw⟩ := h
      exact keeps_lasting hs hw.course (by simp [Change.Quiet, Change.Lasting])
  | mmapDescriptor s a len writable fd fds offset =>
      refine keeps_perform ((Machine.mmapDescriptor_ends hu).mono ?_ fun e t h => keeps_same h.2)
        h hd hl
      intro r t h
      obtain ⟨file, -, -, -, hw⟩ := h
      exact keeps_lasting hs hw.course (by simp [Change.Quiet, Change.Lasting])
  | read s a len sp =>
      apply Machine.performRead_ends (Q := fun r t =>
        Layout.Kept o (ρ.notes m.layout.segment? r.stored) t.layout) hs hu len
      intro e bs t hr
      exact Layout.Kept.of_reads hr hs happ h
  | write s a data sp =>
      apply Machine.performWrite_ends (Q := fun r t =>
        Layout.Kept o (ρ.notes m.layout.segment? r.stored) t.layout) hs hu data
      intro e t hw
      exact Layout.Kept.of_writes hw hs happ h

end Op

namespace Layout

variable {l : Layout} {o : FileId → Array UInt8} {ρ : Ledger}

theorem kept_data (l : Layout) (h : ∀ id, l.page id = none) :
    Kept l.data (fun _ _ => none) l where
  size _ := rfl
  file _ _ := .inl rfl
  frame id x hx := by
    rw [hold?_idle (by rw [home?, h id, Option.bind_none])] at hx
    cases hx

theorem Kept.file_of_uncovered (h : Kept o ρ l) {f : FileId} {i : Nat}
    (hn : ∀ id x, l.hold? id = some x → ¬x.segment.Covers f i) :
    (l.data f)[i]? = ρ.due o f i := by
  rcases h.file f i with hfile | ⟨-, id, x, hx, -, hc⟩
  · exact hfile
  · exact absurd hc (hn id x hx)

end Layout

namespace Machine

variable {m m₀ : Machine} {ρ : Ledger}

theorem current?_of_frame (hs : m.layout.Sound) (h : Layout.Kept m₀.layout.data ρ m.layout)
    {id : PageId} {page : Page} {g : Segment} {f : FrameId} {i : Nat}
    (hpage : m.layout.page id = some page) (hg : page.segment? = some g)
    (hf : page.frame? = some f) (hc : g.Covers g.file i) :
    (m.frames.get? f).bind (fun fr => (m.ram.bytes fr.page)[i - g.offset]?) =
      m₀.due ρ g.file i := by
  obtain ⟨p, hp⟩ := hs.exists_phys? (show m.layout.home? id = some f by
    rw [Layout.home?, hpage, Option.bind_some, hf])
  obtain ⟨x, hx, rfl, hphys⟩ := Layout.exists_hold? hs ⟨hpage, hf, hp⟩ hg
  obtain ⟨-, hdue⟩ := h.frame id x hx
  obtain ⟨fr, hfr, rfl⟩ := Option.map_eq_some_iff.mp hp
  obtain ⟨-, hlo, hhi⟩ := hc
  have hdue := hdue (i - x.segment.offset) (by omega)
  rw [hphys] at hdue
  rw [show m.frames.get? f = some fr from hfr, Option.bind_some]
  apply hdue.trans
  rw [Nat.add_sub_cancel' hlo]
  rfl

theorem filesKept_of_kept (hs : m.layout.Sound) (ha : m.layout.Apart)
    (h : Layout.Kept m₀.layout.data ρ m.layout) : m.FilesKept m₀ ρ where
  covered id page g i hpage hg hc := by
    have hpage : m.layout.page id = some page := hpage
    have hseg : m.layout.segment? id = some g := by
      rw [Layout.segment?, hpage, Option.bind_some, hg]
    unfold current?
    cases hf : page.frame? with
    | none =>
        apply h.file_of_uncovered
        intro k x hx hcov
        obtain rfl : id = k := ha id k g x.segment _ i hseg (Layout.segment?_of_hold? hx) hc hcov
        obtain ⟨f, hhome, -⟩ := Layout.home?_of_hold? hx
        rw [Layout.home?, hpage, Option.bind_some, hf] at hhome
        cases hhome
    | some f => exact current?_of_frame hs h hpage hg hf hc
  uncovered f i hn := by
    apply h.file_of_uncovered
    intro id x hx
    exact hn id x.segment (Layout.segment?_of_hold? hx)
  untouched f i hρ := by
    rcases h.file f i with hfile | ⟨hne, -⟩
    · rw [Ledger.due, hρ, Option.none_or] at hfile
      exact hfile
    · exact absurd hρ hne
  size := h.size

end Machine

theorem FileRuns.invariants {m₀ m : Machine} {ρ : Ledger} (h₀ : Starts m₀) (h : FileRuns m₀ ρ m) :
    m.layout.Sound ∧ m.layout.Unpinned ∧ m.layout.Apart ∧
      Layout.Kept m₀.layout.data ρ m.layout := by
  induction h with
  | nil =>
      have hnone (id : PageId) : m₀.layout.page id = none := by
        obtain ⟨config, n, disk, files, -, -, rfl⟩ := h₀
        exact Machine.page_boot config _ disk files id
      refine ⟨h₀.sound.1, h₀.sound.2, ?_, Layout.kept_data _ hnone⟩
      intro id id' g g' f i hg
      rw [Layout.segment?, hnone id] at hg
      cases hg
  | snoc h ho ha hd hl ih =>
      obtain ⟨hs, hu, happ, hk⟩ := ih
      obtain ⟨cs, hw, -⟩ := Op.goes_run hs hu ha
      exact ⟨hs.of_course hw.course, hw.unpinned, hd, Op.kept_of_run hs hu ha ho happ hd hl hk⟩

/-- Between operations every byte that was written to a page of a file is in the
page's frame or in the file, the rest of the files is as it was, and a page
leaves its bytes in the file when it is given up. -/
theorem FileRuns.writes_kept {m₀ m : Machine} {ρ : Ledger} (h₀ : Starts m₀)
    (h : FileRuns m₀ ρ m) :
    m.FilesKept m₀ ρ ∧
      ∀ (op : Op), op.Admissible m → (op.run m).2.losses = m.losses → ∀ id g f i,
        op.Releases m id → m.segment? id = some g → g.Covers f i →
          (op.run m).2.page? id = none ∧ (op.run m).2.fileByte? f i = m₀.due ρ f i := by
  obtain ⟨hs, hu, happ, hk⟩ := h.invariants h₀
  refine ⟨Machine.filesKept_of_kept hs happ hk, ?_⟩
  intro op ha hl id g f i hr hg hc
  have hgives := Op.gives_run hs hu ha hr
  have hd : (op.run m).2.layout.Apart := happ.mono fun _ _ => hgives.bare
  have hk' := hgives.keeps hs happ _ _ hk hd hl
  obtain ⟨cs, hcs, hcourse, hnone⟩ := hgives
  refine ⟨hnone id hr, hk'.file_of_uncovered fun k x hx hcov => ?_⟩
  have hseg := Layout.segment?_of_hold? hx
  obtain rfl : id = k := happ id k g x.segment f i hg (Op.Gives.bare ⟨cs, hcs, hcourse, hnone⟩ hseg)
    hc hcov
  rw [Layout.segment?, hnone id hr] at hseg
  cases hseg

namespace Op

variable {m : Machine} {s : SpaceId} {a sp : VirtAddr}

theorem segment?_alloc {type : PageType} {writable : Bool} {loader : Option Loader} {id : PageId}
    {g : Segment} (hg : ((alloc s type a writable loader).run m).2.segment? id = some g) :
    m.segment? id = some g ∨ id = ⟨s, a.page⟩ := by
  have h := Machine.perform_ends (x := Machine.alloc s type a writable loader) (m := m)
    (Q := fun _ t => t.layout.segment? id = some g →
      m.layout.segment? id = some g ∨ id = ⟨s, a.page⟩)
    (Machine.alloc_ends.mono ?_ ?_)
  · exact h hg
  · rintro _ t ⟨kind, -, hd⟩ hg
    rw [Layout.segment?_of_register hd, Function.update_apply] at hg
    split at hg
    next hid => exact .inr hid
    next => exact .inl hg
  · rintro e t ⟨-, ht⟩ hg
    rw [ht] at hg
    exact .inl hg

theorem write_lasting (hs : m.layout.Sound) (hu : m.layout.Unpinned) (data : List UInt8) :
    ((write s a data sp).run m).2.segment? = m.segment? ∧
      ((write s a data sp).run m).2.losses = m.losses := by
  apply Machine.performWrite_ends (Q := fun _ t => t.segment? = m.segment? ∧ t.losses = m.losses)
    hs hu data
  intro e t h
  exact h.lasting

end Op

theorem writes_kept_one_page :
    ∃ m₀ m₁ m₂ ρ, m₀ = .boot {} (.ofCapacity 1) none [.ofList [7, 7, 7, 7]] ∧
      m₁ = ((Op.alloc 0 .file ⟨4096⟩ true (some (.segment ⟨0, 0, 4, by decide⟩))).run m₀).2 ∧
      m₂ = ((Op.write 0 ⟨4096⟩ [1, 2, 3] ⟨0⟩).run m₁).2 ∧
      ((Op.write 0 ⟨4096⟩ [1, 2, 3] ⟨0⟩).run m₁).1.failure = none ∧
      FileRuns m₀ ρ m₂ ∧ (List.range 4).map (ρ 0) = [some 1, some 2, some 3, none] ∧
      m₂.FilesKept m₀ ρ ∧
      ∀ i < 4, ((Op.remove 0 ⟨4096⟩).run m₂).2.fileByte? 0 i = [1, 2, 3, 7][i]? := by
  have h₀ : Starts (.boot {} (.ofCapacity 1) none [.ofList [7, 7, 7, 7]]) :=
    ⟨{}, 1, none, [.ofList [7, 7, 7, 7]], by decide, by simp, rfl⟩
  have hone {id : PageId} {g : Segment}
      (hg : ((Op.alloc 0 .file ⟨4096⟩ true (some (.segment ⟨0, 0, 4, by decide⟩))).run
        (.boot {} (.ofCapacity 1) none [.ofList [7, 7, 7, 7]])).2.segment? id = some g) :
      id = ⟨0, ⟨1⟩⟩ := by
    rcases Op.segment?_alloc hg with hn | hid
    · rw [Machine.segment?, show Machine.page? _ id = none from Machine.page_boot ..] at hn
      cases hn
    · exact hid
  have h₁ : FileRuns (.boot {} (.ofCapacity 1) none [.ofList [7, 7, 7, 7]]) _
      ((Op.alloc 0 .file ⟨4096⟩ true (some (.segment ⟨0, 0, 4, by decide⟩))).run _).2 :=
    .snoc .nil trivial trivial (fun id id' g g' f i hg hg' _ _ => (hone hg).trans (hone hg').symm)
      (by decide +kernel)
  obtain ⟨hs, hu, happ, -⟩ := h₁.invariants h₀
  have h₂ : FileRuns (.boot {} (.ofCapacity 1) none [.ofList [7, 7, 7, 7]]) _
      ((Op.write 0 ⟨4096⟩ [1, 2, 3] ⟨0⟩).run _).2 :=
    .snoc h₁ trivial trivial (by rw [Machine.Apart, (Op.write_lasting hs hu _).1]; exact happ)
      (Op.write_lasting hs hu _).2
  refine ⟨_, _, _, _, rfl, rfl, rfl, by decide +kernel, h₂, by decide +kernel,
    (FileRuns.writes_kept h₀ h₂).1, fun i hi => ?_⟩
  have hgone := (FileRuns.writes_kept h₀ h₂).2 (.remove 0 ⟨4096⟩) trivial (by decide +kernel)
    ⟨0, ⟨1⟩⟩ ⟨0, 0, 4, by decide⟩ 0 i rfl (by decide +kernel) ⟨rfl, Nat.zero_le i, hi⟩
  refine hgone.2.trans ?_
  clear hgone
  revert i
  decide +kernel

end Pager
