import Pager.Proofs.Faulting

namespace Pager.Machine

open Step

variable {m : Machine} {s : SpaceId} {a sp : VirtAddr} {page : Page} {f : FrameId} {p : PhysPage}

theorem translate_eq (m : Machine) (s : SpaceId) (v : VirtPage) :
    (m.table s).translate v = (m.layout.entry ⟨s, v⟩).map Entry.page := rfl

def touched (l : Layout) (id : PageId) (write : Bool) : Layout :=
  { l with entry := Function.update l.entry id ((l.entry id).map (fun e =>
    if write then (e.set .accessed true).set .dirty true else e.set .accessed true)) }

theorem layout_mark (id : PageId) (write : Bool) :
    (m.mark id write).layout = touched m.layout id write := by
  cases write with
  | false => exact layout_setFlag m id .accessed true
  | true =>
      change ((m.setFlag id .accessed true).setFlag id .dirty true).layout = _
      rw [layout_setFlag, layout_setFlag, touched]
      simp only [Function.update_self, Function.update_idem, Option.map_map]
      rfl

theorem touch_mapped {write : Bool} (h : m.layout.Mapped ⟨s, a.page⟩ page f p)
    (hw : write = true → page.writable = true) (n : Nat) {E : Failure → Machine → Prop} :
    Ends (touch s a write sp (n + 1)) m
      (fun q t => q = p ∧ t.layout = touched m.layout ⟨s, a.page⟩ write) E := by
  obtain ⟨-, e, he, hp, hwe⟩ := h
  have hflag : m.hasFlag ⟨s, a.page⟩ .writable = page.writable := by
    rw [hasFlag_layout, he, Option.any_some, hwe]
  simp only [touch, ends_bind, ends_get, translate_eq, he, Option.map_some, hp, hflag]
  rw [if_pos (by cases write <;> simp_all), ends_bind, ends_modify, ends_pure]
  exact ⟨rfl, layout_mark _ _⟩

theorem touch_entry {write : Bool} {e : Entry} (hs : m.layout.Sound)
    (hpage : m.layout.page ⟨s, a.page⟩ = some page) (hw : write = true → page.writable = true)
    (he : m.layout.entry ⟨s, a.page⟩ = some e) (n : Nat) {E : Failure → Machine → Prop} :
    Ends (touch s a write sp (n + 1)) m (fun _ _ => True) E := by
  obtain ⟨q, f, hq, hf, hp, hwe⟩ := hs.entries _ e he
  obtain rfl : page = q := Option.some.inj (hpage.symm.trans hq)
  exact (touch_mapped ⟨⟨hpage, hf, hp⟩, e, he, rfl, hwe⟩ hw n).mono (fun _ _ _ => trivial)
    fun _ _ h => h

/-- An access that is allowed needs one fault at most, and one that is not
allowed is told so at once. -/
theorem touch_ends (hs : m.layout.Sound) (hu : m.layout.Unpinned) (write : Bool) (n : Nat) :
    Ends (touch s a write sp (n + 2)) m
      (fun p t => ∃ cs l, m.layout.Opens s a sp l.world cs ∧ m.layout.UnpinnedCourse cs l ∧
        ∃ page f, l.Mapped ⟨s, a.page⟩ page f p ∧ (write = true → page.writable = true) ∧
          t.layout = touched l ⟨s, a.page⟩ write)
      (fun e t => m.layout.Expects e ∧
        ∃ cs, m.layout.Balks s a sp cs ∧ m.layout.UnpinnedCourse cs t.layout) := by
  cases he : m.layout.entry ⟨s, a.page⟩ with
  | none =>
      rw [touch]
      simp only [ends_bind, ends_get, translate_eq, he, Option.map_none]
      refine (handleFault_ends hs hu).mono ?_ fun e t h => h
      intro _ t h
      obtain ⟨-, cs, hf, hw, page, f, p, hmap, hwr⟩ := h
      have hwr' : write = true → page.writable = true := by
        rintro rfl
        exact hwr (by decide)
      refine (touch_mapped hmap hwr' n).mono ?_ fun _ _ h => h
      intro _ t' h
      obtain ⟨rfl, hl⟩ := h
      rcases hf with hopen | ⟨-, hne⟩
      · exact ⟨cs, t.layout, hopen, hw, page, f, hmap, hwr', hl⟩
      · exact absurd he hne
  | some e =>
      obtain ⟨page, f, hpage, hf, hp, hwe⟩ := hs.entries _ e he
      have hmap : m.layout.Mapped ⟨s, a.page⟩ page f e.page := ⟨⟨hpage, hf, hp⟩, e, he, rfl, hwe⟩
      have hloads : Layout.Loads ⟨s, a.page⟩ page m.layout.world [] :=
        .of_frame (hs.coherent hpage) hf
      by_cases hw : write = true → page.writable = true
      · refine (touch_mapped hmap hw (n + 1)).mono ?_ fun _ _ h => h
        intro _ t h
        obtain ⟨rfl, hl⟩ := h
        exact ⟨[], m.layout, .there page [] hpage hloads, .refl hu, page, f, hmap, hw, hl⟩
      · obtain ⟨rfl, hro⟩ := Classical.not_imp.mp hw
        have hflag : m.hasFlag ⟨s, a.page⟩ .writable = page.writable := by
          rw [hasFlag_layout, he, Option.any_some, hwe]
        rw [touch]
        simp only [ends_bind, ends_get, translate_eq, he, Option.map_some, hflag]
        rw [if_neg (by simpa using hro), ends_bind]
        refine (handleFault_ends hs hu).mono ?_ fun e t h => h
        intro _ t h
        obtain ⟨hpres, -⟩ := h
        exact absurd hpres (by decide)

theorem unpinnedCourse_touched {l l' : Layout} {cs : List Change} (h : l.UnpinnedCourse cs l')
    (id : PageId) :
    l.UnpinnedCourse cs (touched l' id false) :=
  ⟨h.course.tail (.single (.mark id)), h.unpinned⟩

theorem inRange_touched {t : Machine} {l : Layout} {cs : List Change} {id : PageId}
    {write : Bool} (hs : m.layout.Sound) (hw : m.layout.UnpinnedCourse cs l)
    (hmap : l.Mapped id page f p) (hl : t.layout = touched l id write) :
    Ram.InRange t.layout.capacity p := by
  rw [hl]
  exact (hs.of_course hw.course).inRange hmap.1.2.2

theorem readPiece_ends (hs : m.layout.Sound) (hu : m.layout.Unpinned) (n : Nat) :
    Ends (readPiece s a sp n) m
      (fun bs t => ∃ cs, m.layout.Opens s a sp t.layout.world cs ∧
        m.layout.UnpinnedCourse cs t.layout ∧
        ∃ page f p, t.layout.InFrame ⟨s, a.page⟩ page f p ∧
          bs = Bytes.slice (t.layout.bytes p) a.offset n)
      (fun e t => m.layout.Expects e ∧
        ∃ cs, m.layout.Balks s a sp cs ∧ m.layout.UnpinnedCourse cs t.layout) := by
  simp only [readPiece, ends_bind]
  refine (touch_ends hs hu false 0).mono ?_ fun e t h => h
  intro p t h
  obtain ⟨cs, l, hopen, hw, page, f, hmap, -, hl⟩ := h
  have hr := inRange_touched hs hw hmap hl
  rw [ends_readFrame hr, ends_pure, hl]
  exact ⟨cs, hopen, unpinnedCourse_touched hw _, page, f, p, hmap.1,
    congrArg (Bytes.slice · a.offset n) (congrFun (congrArg Layout.bytes hl) p)⟩

theorem touched_step {l : Layout} {id : PageId} (hin : l.InFrame id page f p)
    (hw : page.writable = true) (he : (l.entry id).isSome) (i : Nat) (bs : List UInt8) :
    (touched l id false).ChangeStep (.store id i bs) { touched l id true with
      bytes := Function.update l.bytes p (Bytes.splice (l.bytes p) i bs) } := by
  have hstore := Layout.ChangeStep.store (l := touched l id false) id page f p i bs hin hw
    (by simpa [touched] using he)
  have heq : Function.update (touched l id false).entry id
      (((touched l id false).entry id).map (fun e => e.set .dirty true)) =
      (touched l id true).entry := by
    simp only [touched, Function.update_self, Function.update_idem, Option.map_map]
    rfl
  rw [heq] at hstore
  exact hstore

theorem writePiece_ends (hs : m.layout.Sound) (hu : m.layout.Unpinned) (bs : List UInt8) :
    Ends (writePiece s a sp bs) m
      (fun _ t => ∃ cs, m.layout.Opens s a sp t.layout.world cs ∧
        m.layout.UnpinnedCourse (cs ++ [.store ⟨s, a.page⟩ a.offset bs]) t.layout)
      (fun e t => m.layout.Expects e ∧
        ∃ cs, m.layout.Balks s a sp cs ∧ m.layout.UnpinnedCourse cs t.layout) := by
  simp only [writePiece, ends_bind]
  refine (touch_ends hs hu true 0).mono ?_ fun e t h => h
  intro p t h
  obtain ⟨cs, l, hopen, hw, page, f, hmap, hwr, hl⟩ := h
  have hr := inRange_touched hs hw hmap hl
  obtain ⟨hin, e, he, -⟩ := hmap
  have hbytes : t.ram.bytes p = l.bytes p := congrFun (congrArg Layout.bytes hl) p
  rw [ends_readFrame hr, ends_writeFrame hr, layout_store t hr, hbytes, hl]
  have hstore := touched_step hin (hwr rfl) (by rw [he, Option.isSome_some]) a.offset bs
  exact ⟨cs, hopen, (unpinnedCourse_touched hw _).course.snoc hstore, hw.unpinned⟩

end Pager.Machine
