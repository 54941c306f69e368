import Pager.Proofs.Flushing
import Pager.Proofs.Passing
import Pager.Proofs.Rollback
import Pager.Proofs.Staying

namespace Pager

open Step

structure Report.Refused (r : Report) (c : Config) (v : VirtPage) (a : VirtAddr) (len : Nat) :
    Prop where
  passed : ∀ i cur, a.add? i = some cur → cur.page = v → r.passed ≤ i
  eacces : ∀ cur, r.passed < len → a.add? r.passed = some cur → cur.page = v →
    c.isUser cur = true → r.failure = some (.errno .eacces)

namespace Machine

variable {m t : Machine} {id : PageId} {page : Page}

/-- The bytes that a program finds in a page: those in its frame or in its slot,
or else those of its part of a file. -/
def shown? (m : Machine) (id : PageId) : Option PageBytes :=
  (m.contents? id).or ((m.segment? id).map (fun g => g.image (m.files.get g.file).data))

/-- What has become of a page that was not written. A page of a file that is out
of its frame shows its file, whatever it showed before. -/
structure Unwritten (m : Machine) (id : PageId) (page : Page) (t : Machine) : Prop where
  registered : ∃ q, t.page? id = some q ∧ page.Continues q
  segment : t.segment? id = m.segment? id
  idle : page.resident = false → t.page? id = some page
  frame : ∀ q f, t.page? id = some q → q.frame? = some f → page.frame? = some f
  shown : t.shown? id = m.shown? id ∨
    page.type = .file ∧ ∃ q, t.page? id = some q ∧ q.resident = false

/-- No program writes to a page, and nothing is written to its file on its behalf. -/
structure Protected (m : Machine) (id : PageId) (page : Page) : Prop where
  clean : page.dirty = false ∧ m.hasFlag id .dirty = false
  evicted : ∀ f b, (perform (swapOut id f b) m).2.files = m.files
  removed : (perform (removePage id) m).2.files = m.files
  refused : ∀ a sp data,
    ((Op.write id.space a data sp).run m).1.Refused m.config id.page a data.length
  unwritten : ∀ s a sp data, m.Unwritten id page ((Op.write s a data sp).run m).2

theorem onSwap_files {α : Type} (x : Step Swap α) :
    Ends (onSwap x) m (fun _ t => t.files = m.files) (fun _ t => t.files = m.files) := by
  rw [onSwap, ends_zoom]
  exact (ends_self _ _).mono (fun _ _ _ => rfl) fun _ _ _ => rfl

theorem saveAnon_files (held : Option Slot) (b : PageBytes) :
    Ends (saveAnon id page held b) m (fun _ t => t.files = m.files)
      (fun _ t => t.files = m.files) := by
  simp only [saveAnon, allocSlot, ends_bind, ends_demand, ends_handle, ends_modify, ends_note]
  refine ⟨fun _ => ?_, fun _ => trivial⟩
  apply (onSwap_files _).mono
  · intro k t ht
    apply (onSwap_files (m := t.unmapPage id) _).mono
    · exact fun _ _ h => h.trans ht
    · rintro (e | q) u hu
      · apply (onSwap_files _).mono
        · exact fun _ _ h => (h.trans hu).trans ht
        · exact fun _ _ h => (h.trans hu).trans ht
      · exact hu.trans ht
  · rintro (e | q) t ht
    · exact ht
    · exact ht

theorem swapOut_files (hn : m.layout.changed id = false) (f : FrameId) (b : PageBytes) :
    Ends (swapOut id f b) m (fun _ t => t.files = m.files) (fun _ t => t.files = m.files) := by
  simp only [swapOut, ends_bind, ends_get]
  cases hpage : m.page? id with
  | none => rfl
  | some page =>
      dsimp only
      split
      · cases hc : page.content with
        | unloaded => rfl
        | anon held => exact saveAnon_files held b
        | file g span dirty =>
            have hclean : (dirty || m.hasFlag id .dirty) = false := by
              rw [Layout.changed, show m.layout.page id = _ from hpage, Option.any_some,
                Page.dirty, hc] at hn
              exact hn
            simp only [saveFile, writeBack, ends_bind, ends_handle, ends_get, ends_modify,
              hclean, Bool.false_eq_true, if_false, ends_pure]
            rfl
      · rfl

theorem shown?_eq (hc : t.contents? id = m.contents? id) (hg : t.segment? id = m.segment? id)
    (h : (m.contents? id).isSome ∨ m.segment? id = none) : t.shown? id = m.shown? id := by
  rw [shown?, shown?, hc, hg]
  rcases h with h | h
  · obtain ⟨b, hb⟩ := Option.isSome_iff_exists.mp h
    rw [hb, Option.some_or, Option.some_or]
  · rw [h, Option.map_none, Option.map_none]

theorem contents?_unloaded (hs : m.layout.Sound) (hpage : m.page? id = some page)
    (hl : page.loaded = false) : m.contents? id = none := by
  have hf := (hs.coherent hpage).frame?_of_unloaded hl
  rw [contents?, hpage, Option.bind_some]
  cases hc : page.content <;> simp_all [Page.loaded, Page.slot?]

theorem segment?_anon (hpage : m.page? id = some page) (hk : page.kind = .anon) :
    m.segment? id = none := by
  rw [segment?, hpage, Option.bind_some]
  cases hg : page.segment? with
  | none => rfl
  | some g =>
      rw [Page.kind_of_segment? hg] at hk
      cases hk

theorem shown?_framed {P : Option UInt8 → Prop} {g : Segment} {i : Nat} (hs : m.layout.Sound)
    (hp : Layout.Shows P g.file i m.layout) (hg : m.segment? id = some g)
    (hr : (m.page? id).any Page.resident = true) (hc : g.Covers g.file i) :
    ∃ b, m.shown? id = some b ∧ P b[i - g.offset]? := by
  obtain ⟨page, hpage, hres⟩ := (Option.any_eq_true ..).mp hr
  obtain ⟨f, hf⟩ := Option.isSome_iff_exists.mp hres
  have hpage : m.layout.page id = some page := hpage
  obtain ⟨p, hphys⟩ := hs.exists_phys? (show m.layout.home? id = some f by
    rw [Layout.home?, hpage, Option.bind_some, hf])
  have hin : m.layout.InFrame id page f p := ⟨hpage, hf, hphys⟩
  obtain ⟨x, hx, rfl, rfl⟩ := Layout.exists_hold? hs hin (by
    rwa [segment?, show m.page? id = some page from hpage, Option.bind_some] at hg)
  refine ⟨m.layout.bytes x.phys, ?_, hp.frame id x hx hc⟩
  rw [shown?, contents?_eq_held?, Layout.held?_inFrame hin, Option.some_or]

theorem shown?_idle {g : Segment} (hg : m.segment? id = some g)
    (hr : (m.page? id).any Page.resident = false) :
    m.shown? id = some (g.image (m.files.get g.file).data) := by
  obtain ⟨page, hpage, hpg⟩ := Option.bind_eq_some_iff.mp hg
  have hn : m.contents? id = none := by
    rw [hpage, Option.any_some, Page.resident, Option.isSome_eq_false_iff,
      Option.isNone_iff_eq_none] at hr
    have hslot : page.slot? = none := by
      have hk := Page.kind_of_segment? hpg
      cases hc : page.content <;> simp_all [Page.kind, Page.slot?]
    simp only [contents?, hpage, Option.bind_some, hr, hslot]
  rw [shown?, hn, Option.none_or, hg, Option.map_some]

theorem contents?_of_stays {f : FrameId} (hs : m.layout.Sound)
    (h : Layout.Stays id m.layout t.layout) (hf : t.layout.home? id = some f) :
    (m.contents? id).isSome ∧ t.contents? id = m.contents? id := by
  obtain ⟨hhome, hphys, hb⟩ := h.frame f hf
  obtain ⟨p, hp⟩ := hs.exists_phys? hhome
  rw [contents?_eq_held?, contents?_eq_held?, Layout.held?, Layout.held?, hf, hhome]
  simp only [hphys, hp, Option.map_some, hb p hp]
  exact ⟨rfl, trivial⟩

theorem unwritten_of_stays {q : Page} (hs : m.layout.Sound) (ht : t.layout.Sound)
    (hpage : m.page? id = some page) (hq : t.page? id = some q) (hcont : page.Continues q)
    (hg : t.segment? id = m.segment? id) (h : Layout.Stays id m.layout t.layout)
    (hcell : t.layout.cell id = m.layout.cell id) : m.Unwritten id page t := by
  have hhome : m.layout.home? id = page.frame? := by
    rw [Layout.home?, show m.layout.page id = some page from hpage, Option.bind_some]
  have hhome' : t.layout.home? id = q.frame? := by
    rw [Layout.home?, show t.layout.page id = some q from hq, Option.bind_some]
  have hidle (hr : page.resident = false) : t.page? id = some page := by
    have hn : m.layout.home? id = none := by
      rwa [hhome, ← Option.isNone_iff_eq_none, ← Option.isSome_eq_false_iff]
    exact (h.idle hn).trans hpage
  refine ⟨⟨q, hq, hcont⟩, hg, hidle, fun r f hr hf => ?_, ?_⟩
  · obtain rfl := Option.some.inj (hq.symm.trans hr)
    rw [← hhome]
    exact (h.frame f (hhome'.trans hf)).1
  · cases hf : q.frame? with
    | some f =>
        obtain ⟨hsome, hc⟩ := contents?_of_stays hs h (hhome'.trans hf)
        exact .inl (shown?_eq hc hg (.inl hsome))
    | none =>
        have hout : q.resident = false := by rw [Page.resident, hf, Option.isSome_none]
        cases hk : page.kind with
        | file => exact .inr ⟨by rw [Page.type, hk]; rfl, q, hq, hout⟩
        | anon =>
            left
            cases hl : page.loaded with
            | true =>
                have htype : page.currentType = .anon := by rw [Page.currentType, hl, hk]; rfl
                obtain ⟨hsome, hc⟩ := contents?_of_cell hs ht hpage htype hcell
                exact shown?_eq hc hg (.inl hsome)
            | false =>
                have hr : page.resident = false := by
                  rw [Page.resident, (hs.coherent hpage).frame?_of_unloaded hl, Option.isSome_none]
                have hc := contents?_unloaded hs hpage hl
                have hc' := contents?_unloaded ht (hidle hr) hl
                exact shown?_eq (hc'.trans hc.symm) hg (.inr (segment?_anon hpage hk))

end Machine

namespace Op

open Machine

variable {m : Machine} {id : PageId} {page : Page} {s : SpaceId} {a sp : VirtAddr}

theorem write_refused (hs : m.layout.Sound) (hu : m.layout.Unpinned)
    (hpage : m.page? id = some page) (hw : page.writable = false) (data : List UInt8) :
    ((Op.write id.space a data sp).run m).1.Refused m.config id.page a data.length := by
  have h : m.layout.Passes id.space a sp true 0 data.length _ _ := write_passes hs hu data
  generalize ((Op.write id.space a data sp).run m).1 = r at h ⊢
  have hthere {l : Layout} (hr : m.layout.Reaches id.space sp l) :
      l.config = m.config ∧ ∃ q, l.page id = some q ∧ q.writable = false := by
    obtain ⟨cs, hwent, hgrow⟩ := hr
    obtain ⟨q, hq, hcont⟩ := Layout.continues_of_course hs hwent.course hgrow.lasting hpage
    exact ⟨Layout.config_of_course hwent.course, q, hq, hcont.writable.trans hw⟩
  have hsum (n : Nat) : a.add? (0 + n) = a.add? n := by rw [Nat.zero_add]
  refine ⟨fun i cur hcur hv => ?_, fun cur hlt hcur hv ha => ?_⟩
  · by_contra hlt
    obtain ⟨b, l, hb, hr, p, hp, hwr⟩ := h.passed i (by omega)
    obtain rfl := Option.some.inj (hcur.symm.trans (hsum i ▸ hb))
    obtain ⟨-, q, hq, hro⟩ := hthere hr
    rw [hv] at hp
    obtain rfl := Option.some.inj (hq.symm.trans hp)
    rw [hwr rfl] at hro
    cases hro
  · have hhalts := h.halts
    generalize r.failure = o at hhalts ⊢
    cases hhalts with
    | whole hn => omega
    | overflow hn hnone =>
        rw [hsum, hcur] at hnone
        cases hnone
    | @stopped b l e hn hb hr he hf =>
        obtain rfl := Option.some.inj (hcur.symm.trans (hsum _ ▸ hb))
        obtain ⟨hc, q, hq, hro⟩ := hthere hr
        rw [hf .eacces (Layout.verdict_readOnly (by rwa [hc]) (by rwa [hv]) hro)]

theorem write_unwritten (hs : m.layout.Sound) (hu : m.layout.Unpinned)
    (hpage : m.page? id = some page) (hw : page.writable = false) (data : List UInt8) :
    m.Unwritten id page ((Op.write s a data sp).run m).2 := by
  obtain ⟨cs, hwent, hgrow⟩ :
      ∃ cs, m.layout.UnpinnedCourse cs ((Op.write s a data sp).run m).2.layout ∧
      m.layout.Grows s sp cs :=
    performWrite_ends
      (Q := fun _ t => ∃ cs, m.layout.UnpinnedCourse cs t.layout ∧ m.layout.Grows s sp cs)
      hs hu data fun e t h => h.grows hu
  have hwrite : Ends (writeUser s a data sp) m _ _ := writeFrom_stays hs hu hpage hw 0 data
  obtain ⟨hstay, hcell⟩ := perform_ends (Q := fun _ t => Layout.Stays id m.layout t.layout ∧
    t.layout.cell id = m.layout.cell id) hwrite
  obtain ⟨q, hq, hcont⟩ := Layout.continues_of_course hs hwent.course hgrow.lasting hpage
  exact unwritten_of_stays hs (hs.of_course hwent.course) hpage hq hcont
    (congrFun (write_lasting hs hu data).1 id) hstay hcell

end Op

/-- A page that may not be written does not change but with its file, is never
marked as changed and never written to its file, wherever it is. A file changes
only where a page has it that may be written. -/
theorem Reachable.readOnly_protected {m : Machine} (h : Reachable m) {id : PageId} {page : Page}
    (hpage : m.page? id = some page) (hw : page.writable = false) :
    m.Protected id page ∧
      ∀ op : Op, op.Admissible m → ∀ f i,
        (∀ o p g, m.page? o = some p → p.segment? = some g → g.Covers f i → p.writable = false) →
          (op.run m).2.fileByte? f i = m.fileByte? f i := by
  obtain ⟨hs, hu⟩ := h.sound
  have hn := h.clean.changed_eq_false hpage hw
  refine ⟨⟨?_, fun f b => ?_, ?_, fun a sp data => Op.write_refused hs hu hpage hw data,
    fun s a sp data => Op.write_unwritten hs hu hpage hw data⟩, fun op ha f i hg =>
      Op.data_of_run hs hu ha h.clean hg⟩
  · rw [Layout.changed, show m.layout.page id = some page from hpage, Option.any_some,
      Bool.or_eq_false_iff] at hn
    exact hn
  · exact Machine.perform_ends (Q := fun _ t => t.files = m.files) (Machine.swapOut_files hn f b)
  · refine Machine.perform_ends (Q := fun _ t => t.files = m.files) ?_
    exact ((Machine.removePage_ends hs hu).and
      (Machine.removePage_files (h.clean.pending?_eq_none hpage hw))).mono (fun _ _ h => h.2)
        fun _ _ h => h.1.elim

theorem readOnly_protected_one_page :
    ∃ m page, m = ((Op.read 0 ⟨4096⟩ 1 ⟨0⟩).run ((Op.alloc 0 .file ⟨4096⟩ false
        (some (.segment ⟨0, 0, 4, by decide⟩))).run
          (.boot {} (.ofCapacity 1) none [.ofList [7, 7, 7, 7]])).2).2 ∧
      m.page? ⟨0, ⟨1⟩⟩ = some page ∧ page.writable = false ∧ page.resident = true ∧
      m.Protected ⟨0, ⟨1⟩⟩ page ∧
        ∀ op : Op, op.Admissible m → ∀ f i,
          (∀ o p g, m.page? o = some p → p.segment? = some g → g.Covers f i →
            p.writable = false) →
          (op.run m).2.fileByte? f i = m.fileByte? f i := by
  have h₀ : Starts (.boot {} (.ofCapacity 1) none [.ofList [7, 7, 7, 7]]) :=
    ⟨{}, 1, none, [.ofList [7, 7, 7, 7]], by decide, by simp, rfl⟩
  have hr : Runs (.boot {} (.ofCapacity 1) none [.ofList [7, 7, 7, 7]])
      [(.alloc 0 .file ⟨4096⟩ false (some (.segment ⟨0, 0, 4, by decide⟩)), _),
        (.read 0 ⟨4096⟩ 1 ⟨0⟩, _)] _ :=
    .cons trivial (.cons trivial (.nil _))
  have h : Reachable ((Op.read 0 ⟨4096⟩ 1 ⟨0⟩).run ((Op.alloc 0 .file ⟨4096⟩ false
      (some (.segment ⟨0, 0, 4, by decide⟩))).run
        (.boot {} (.ofCapacity 1) none [.ofList [7, 7, 7, 7]])).2).2 := ⟨_, _, h₀, hr⟩
  generalize hm : ((Op.read 0 ⟨4096⟩ 1 ⟨0⟩).run ((Op.alloc 0 .file ⟨4096⟩ false
      (some (.segment ⟨0, 0, 4, by decide⟩))).run
        (.boot {} (.ofCapacity 1) none [.ofList [7, 7, 7, 7]])).2).2 = m at h
  obtain ⟨page, hpage, hp⟩ := (Option.any_eq_true ..).mp (show (m.page? ⟨0, ⟨1⟩⟩).any
      (fun p => p.writable = false ∧ p.resident = true) = true by
    rw [← hm]
    decide +kernel)
  rw [decide_eq_true_iff] at hp
  exact ⟨m, page, rfl, hpage, hp.1, hp.2, h.readOnly_protected hpage hp.1⟩

/-- Two windows on a file with a page between them, in a memory of one frame. Of
the second window, which may not be written, a byte has been read. -/
def twoWindows : Machine :=
  ((Op.read 0 ⟨12288⟩ 1 ⟨0⟩).run
    ((Op.alloc 0 .file ⟨4096⟩ true (some (.segment ⟨0, 0, 2, by decide⟩))).run
      ((Op.alloc 0 .anon ⟨8192⟩ true none).run
        ((Op.alloc 0 .file ⟨12288⟩ false (some (.segment ⟨0, 0, 2, by decide⟩))).run
          (.boot {} (.ofCapacity 1) none [.ofList [170, 187]])).2).2).2).2

theorem starts_one_frame : Starts (.boot {} (.ofCapacity 1) none [.ofList [170, 187]]) :=
  ⟨{}, 1, none, [.ofList [170, 187]], by decide, by simp, rfl⟩

theorem runs_twoWindows :
    ∃ trail, Runs (.boot {} (.ofCapacity 1) none [.ofList [170, 187]]) trail twoWindows ∧
      ∀ x ∈ trail, ∀ s a data sp, x.1 ≠ Op.write s a data sp := by
  refine ⟨[(.alloc 0 .file ⟨12288⟩ false (some (.segment ⟨0, 0, 2, by decide⟩)), _),
    (.alloc 0 .anon ⟨8192⟩ true none, _),
    (.alloc 0 .file ⟨4096⟩ true (some (.segment ⟨0, 0, 2, by decide⟩)), _),
    (.read 0 ⟨12288⟩ 1 ⟨0⟩, _)],
    .cons trivial (.cons trivial (.cons trivial (.cons trivial (.nil _)))), by simp⟩

theorem segment?_twoWindows {id : PageId} {g : Segment} (hg : twoWindows.segment? id = some g) :
    id = ⟨0, ⟨1⟩⟩ ∨ id = ⟨0, ⟨2⟩⟩ ∨ id = ⟨0, ⟨3⟩⟩ := by
  have hr : Runs (.boot {} (.ofCapacity 1) none [.ofList [170, 187]])
      [(.alloc 0 .file ⟨12288⟩ false (some (.segment ⟨0, 0, 2, by decide⟩)), _),
        (.alloc 0 .anon ⟨8192⟩ true none, _),
        (.alloc 0 .file ⟨4096⟩ true (some (.segment ⟨0, 0, 2, by decide⟩)), _)] _ :=
    .cons trivial (.cons trivial (.cons trivial (.nil _)))
  obtain ⟨hs, hu⟩ := hr.sound starts_one_frame.sound.1 starts_one_frame.sound.2
  have hread := Op.looked_run hs hu (show (Op.read 0 ⟨12288⟩ 1 ⟨0⟩).Looks from trivial)
  have hg := (congrFun hread.segment? id).symm.trans hg
  rcases Op.segment?_alloc hg with hg | hid
  swap
  · exact .inl hid
  rcases Op.segment?_alloc hg with hg | hid
  swap
  · exact .inr (.inl hid)
  rcases Op.segment?_alloc hg with hg | hid
  swap
  · exact .inr (.inr hid)
  rw [Machine.segment?, show Machine.page? _ id = none from Machine.page_boot ..] at hg
  cases hg

/-- A write that begins in the first window, fills the page between the windows
and then wants to store one byte in the second window. -/
def overrun : Op := .write 0 ⟨4096⟩ (List.replicate 8193 88) ⟨0⟩

theorem run_overrun :
    (overrun.run twoWindows).1.passed = 8192 ∧
      (overrun.run twoWindows).1.failure = some (.errno .eacces) ∧
      (overrun.run twoWindows).1.stored.map (fun x => (x.id, x.start, x.bytes[0]?)) =
        [(⟨0, ⟨1⟩⟩, 0, some 88), (⟨0, ⟨2⟩⟩, 0, some 88)] ∧
      ((overrun.run twoWindows).2.page? ⟨0, ⟨1⟩⟩).any Page.resident = false ∧
      ((overrun.run twoWindows).2.page? ⟨0, ⟨3⟩⟩).any Page.resident = false ∧
      ((overrun.run twoWindows).2.files.get 0).data.size = 2 := by
  decide +kernel

theorem reachable_twoWindows : Reachable twoWindows := by
  obtain ⟨trail, hr, -⟩ := runs_twoWindows
  exact ⟨_, trail, starts_one_frame, hr⟩

theorem shown?_twoWindows : ∃ b, twoWindows.shown? ⟨0, ⟨3⟩⟩ = some b ∧ b[0]? = some 170 := by
  obtain ⟨trail, hr, hop⟩ := runs_twoWindows
  have hshows : Layout.Shows (· = some 170) 0 0 twoWindows.layout :=
    hr.shows_unwritten starts_one_frame.sound.1 starts_one_frame.sound.2 hop
      ⟨by decide +kernel, fun id x hx => by
        rw [Layout.hold?_idle (by rw [Layout.home?, Machine.page_boot, Option.bind_none])] at hx
        cases hx⟩
  have hg : twoWindows.segment? ⟨0, ⟨3⟩⟩ = some ⟨0, 0, 2, by decide⟩ := by decide +kernel
  exact Machine.shown?_framed reachable_twoWindows.sound.1 hshows hg (by decide +kernel)
    ⟨rfl, by decide, by decide⟩

theorem fileByte?_overrun : (overrun.run twoWindows).2.fileByte? 0 0 = some 88 := by
  have hg₁ : twoWindows.segment? ⟨0, ⟨1⟩⟩ = some ⟨0, 0, 2, by decide⟩ := by decide +kernel
  have hg₂ : twoWindows.segment? ⟨0, ⟨2⟩⟩ = none := by decide +kernel
  obtain ⟨-, -, hstored, hout, -⟩ := run_overrun
  obtain ⟨x, xs, hst, hx, hxs⟩ := List.map_eq_cons_iff.mp hstored
  obtain ⟨hid, hstart, hbyte⟩ : x.id = ⟨0, ⟨1⟩⟩ ∧ x.start = 0 ∧ x.bytes[0]? = some 88 := by
    simpa only [Prod.mk.injEq] using hx
  obtain ⟨hlen, -⟩ := List.getElem?_eq_some_iff.mp hbyte
  have hbetween (y : Piece) (hy : y ∈ xs) : twoWindows.segment? y.id = none := by
    have hmem := List.mem_map_of_mem (f := fun x => (x.id, x.start, x.bytes[0]?)) hy
    rw [hxs, List.mem_singleton, Prod.mk.injEq] at hmem
    rw [hmem.1, hg₂]
  have hsole (o : PageId) (page : Page) (g : Segment) (hne : o ≠ x.id)
      (hpage : twoWindows.page? o = some page) (hpg : page.segment? = some g) (_ : g.Covers 0 0) :
      page.writable = false := by
    have ho : twoWindows.segment? o = some g := by
      rw [Machine.segment?, hpage, Option.bind_some, hpg]
    rcases segment?_twoWindows ho with rfl | rfl | rfl
    · exact absurd hid.symm hne
    · rw [hg₂] at ho
      cases ho
    · have hro : (twoWindows.page? ⟨0, ⟨3⟩⟩).map Page.writable = some false := by decide +kernel
      rw [hpage] at hro
      exact Option.some.inj hro
  have hcover : (Segment.mk 0 0 2 (by decide)).Covers 0 0 := ⟨rfl, by decide, by decide⟩
  refine (reachable_twoWindows.write_flushed hst (hid ▸ hg₁) hbetween hsole (hid ▸ hout) hcover
    (Nat.le_of_eq hstart) (by rw [hstart]; simpa using hlen)).trans ?_
  rw [hstart]
  exact hbyte

/-- A page that may not be written loses its frame to the write that is refused
at it. Before, it showed the file as it was when it was loaded, and now it shows
what the same write has put into the file through another page. -/
theorem readOnly_page_follows_file :
    Reachable twoWindows ∧ (twoWindows.page? ⟨0, ⟨3⟩⟩).map Page.writable = some false ∧
      ∃ r t, overrun.run twoWindows = (r, t) ∧
        r.passed = 8192 ∧ (VirtAddr.mk 4096).add? 8192 = some ⟨12288⟩ ∧
        twoWindows.config.isUser ⟨12288⟩ = true ∧ r.failure = some (.errno .eacces) ∧
        (∃ b, twoWindows.shown? ⟨0, ⟨3⟩⟩ = some b ∧ b[0]? = some 170) ∧
        ∃ b, t.shown? ⟨0, ⟨3⟩⟩ = some b ∧ b[0]? = some 88 := by
  obtain ⟨hs, hu⟩ := reachable_twoWindows.sound
  obtain ⟨hpassed, hfailure, -, -, hout, hsize⟩ := run_overrun
  have hg : (overrun.run twoWindows).2.segment? ⟨0, ⟨3⟩⟩ = some (Segment.mk 0 0 2 (by decide)) :=
    (congrFun (Op.write_lasting hs hu _).1 _).trans (by decide +kernel)
  have hfits : (Segment.mk 0 0 2 (by decide)).Fits
      ((overrun.run twoWindows).2.files.get 0).data.size := by
    rw [hsize]
    rfl
  refine ⟨reachable_twoWindows, by decide +kernel, (overrun.run twoWindows).1,
    (overrun.run twoWindows).2, rfl, hpassed, by decide, by decide +kernel, hfailure,
    shown?_twoWindows, _, Machine.shown?_idle hg hout, ?_⟩
  exact (Segment.getElem?_image hfits (by decide)).trans fileByte?_overrun

end Pager
