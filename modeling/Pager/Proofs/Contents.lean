import Pager.Proofs.Changes

namespace Pager

/-- What a program can tell of a page. Of a page of a file that is only how many
pages its mapping has, since its bytes are not its own. -/
inductive Cell
  | pending (loader : Option Loader)
  | bytes (b : PageBytes)
  | file (span : Nat)

namespace Cell

def span : Cell → Nat
  | pending _ | bytes _ => 0
  | file n => n

def modify (g : PageBytes → PageBytes) : Cell → Cell
  | bytes b => bytes (g b)
  | c => c

end Cell

def Content.cell (b : PageBytes) : Content → Cell
  | .unloaded .anon loader _ => .pending loader
  | .anon _ => .bytes b
  | .unloaded .file _ n | .file _ n _ => .file n

/-- A memory without frames: every page that is registered, with its bytes. -/
abbrev Flat := PageId → Option Cell

namespace Change

def target : Change → PageId
  | register id _ | load id _ | refresh id | store id _ _ | fill id _ | destroy id => id

theorem Fills.target {id : PageId} {c : Change} (h : c.Fills id) : c.target = id := by
  cases c <;> first | exact h | exact h.elim

def apply : Change → Flat → Flat
  | register id page, φ => Function.update φ id (some (page.content.cell (Bytes.zero pageSize)))
  | load id b, φ => Function.update φ id (some (.bytes b))
  | refresh _, φ => φ
  | store id i bs, φ =>
      Function.update φ id ((φ id).map (Cell.modify (fun b => Bytes.splice b i bs)))
  | fill id b, φ => Function.update φ id ((φ id).map (Cell.modify (fun _ => b)))
  | destroy id, φ => Function.update φ id none

theorem apply_other {c : Change} {φ : Flat} {id : PageId} (h : id ≠ c.target) :
    c.apply φ id = φ id := by
  cases c with
  | refresh => rfl
  | register | load | store | fill | destroy => exact Function.update_of_ne h ..

theorem foldl_apply_other {cs : List Change} {φ : Flat} {id : PageId}
    (h : ∀ c ∈ cs, id ≠ c.target) : cs.foldl (fun φ c => c.apply φ) φ id = φ id := by
  induction cs generalizing φ with
  | nil => rfl
  | cons c cs ih =>
      rw [List.foldl_cons, ih fun d hd => h d (List.mem_cons_of_mem _ hd),
        apply_other (h c (by simp))]

end Change

namespace Layout

variable {l l' : Layout} {id o : PageId} {page : Page} {p : PhysPage} {f : FrameId} {c : Change}
  {cs : List Change}

def held? (l : Layout) (id : PageId) : Option PageBytes :=
  match l.home? id, l.slot? id with
  | some f, _ => (l.phys? f).map l.bytes
  | none, some s => some (l.stored s)
  | none, none => none

def cell (l : Layout) : Flat := fun id =>
  (l.page id).map (fun page => page.content.cell ((l.held? id).getD (Bytes.zero pageSize)))

theorem cell_eq_none : l.cell id = none ↔ l.page id = none := Option.map_eq_none_iff

theorem held?_inFrame (h : l.InFrame id page f p) : l.held? id = some (l.bytes p) := by
  rw [held?, h.home?_eq]
  exact congrArg (Option.map l.bytes) h.2.2

theorem held?_congr (h : l.Sound) (hpage : l'.page o = l.page o)
    (hframe : ∀ f p, l.home? o = some f → l.phys? f = some p →
      l'.phys? f = some p ∧ l'.bytes p = l.bytes p)
    (hslot : ∀ s, l.slot? o = some s → l'.stored s = l.stored s) : l'.held? o = l.held? o := by
  have hhome : l'.home? o = l.home? o := by rw [home?, hpage]; rfl
  have hslots : l'.slot? o = l.slot? o := by rw [slot?, hpage]; rfl
  rw [held?, hhome, hslots, held?]
  cases hf : l.home? o with
  | some f =>
      obtain ⟨p, hp⟩ := h.exists_phys? hf
      obtain ⟨hp', hb⟩ := hframe f p hf hp
      simp only [hp, hp', Option.map_some, hb]
  | none =>
      cases hs : l.slot? o with
      | some s => simp only [hslot s hs]
      | none => rfl

theorem cell_congr (h : l.Sound) (hpage : l'.page o = l.page o)
    (hframe : ∀ f p, l.home? o = some f → l.phys? f = some p →
      l'.phys? f = some p ∧ l'.bytes p = l.bytes p)
    (hslot : ∀ s, l.slot? o = some s → l'.stored s = l.stored s) : l'.cell o = l.cell o := by
  rw [cell, held?_congr h hpage hframe hslot, hpage]
  rfl

theorem bytes_other {b : PageBytes} {g : FrameId} {q : PhysPage} (h : l.Sound)
    (hf : l.phys? f = some p) (hg : l.phys? g = some q) (hne : g ≠ f) :
    Function.update l.bytes p b q = l.bytes q := by
  refine Function.update_of_ne ?_ ..
  rintro rfl
  exact hne (h.phys?_inj hg hf)

theorem home?_ne_spare (h : l.Sound) (hf : l.Spare f p) {g : FrameId} (hg : l.home? o = some g) :
    g ≠ f := by
  rintro rfl
  have := (h.owners g o).mpr hg
  rw [hf.2] at this
  cases this

theorem home?_ne_of_ne (h : l.Sound) {id : PageId} (hid : l.home? id = some f) (ho : o ≠ id)
    {g : FrameId} (hg : l.home? o = some g) : g ≠ f := by
  rintro rfl
  exact ho (Option.some.inj (((h.owners g o).mpr hg).symm.trans ((h.owners g id).mpr hid)))

theorem cell_of_settle (h : l.Sound) (hf : l.Spare f p) {c : Content} {b : PageBytes}
    (ho : o ≠ id) : (l.settle id page f p c b).cell o = l.cell o := by
  refine cell_congr h (Function.update_of_ne ho ..) (fun g q hg hq => ⟨?_, ?_⟩) fun _ _ => rfl
  · exact (congrFun FrameTable.phys?_bind g).trans hq
  · exact bytes_other h hf.1 hq (home?_ne_spare h hf hg)

theorem cell_of_leave (h : l.Sound) {c : Content} (ho : o ≠ id) :
    (l.leave id page f c).cell o = l.cell o :=
  cell_congr h (Function.update_of_ne ho ..)
    (fun g _ _ hq => ⟨(congrFun FrameTable.phys?_unbind g).trans hq, rfl⟩) fun _ _ => rfl

theorem cell_eq (page : Page) (hpage : l.page id = some page) :
    l.cell id = some (page.content.cell ((l.held? id).getD (Bytes.zero pageSize))) := by
  rw [cell, hpage, Option.map_some]

theorem cell_inFrame (h : l.InFrame id page f p) :
    l.cell id = some (page.content.cell (l.bytes p)) := by
  rw [cell_eq page h.1, held?_inFrame h, Option.getD_some]

theorem held?_of_cell (h : l.Sound) {b : PageBytes} (hc : l.cell id = some (.bytes b)) :
    l.held? id = some b := by
  obtain ⟨page, hpage, hb⟩ := Option.map_eq_some_iff.mp hc
  obtain ⟨b', hb'⟩ : ∃ b', l.held? id = some b' := by
    cases h.coherent hpage with
    | unloaded w kind loader span => cases kind <;> cases hb
    | idle w g span | file w f g span dirty => cases hb
    | frame w f =>
        have hhome : l.home? id = some f := by rw [home?, hpage, Option.bind_some]
        obtain ⟨p, hp⟩ := h.exists_phys? hhome
        exact ⟨l.bytes p, held?_inFrame ⟨hpage, rfl, hp⟩⟩
    | slot w s =>
        refine ⟨l.stored s, ?_⟩
        simp [held?, home?, slot?, hpage, Page.slot?]
  obtain ⟨w, f, c⟩ := page
  cases c with
  | unloaded kind loader span => cases kind <;> cases hb
  | file g span dirty => cases hb
  | anon slot =>
      rw [hb', Option.getD_some] at hb
      rw [hb', ← Cell.bytes.inj hb]

theorem cell_file (page : Page) (hpage : l.page id = some page) (hk : page.kind = .file) :
    l.cell id = some (.file page.span) := by
  rw [cell_eq page hpage]
  obtain ⟨w, f, c⟩ := page
  cases c with
  | unloaded kind loader span => cases kind <;> simp_all [Page.kind, Page.span, Content.cell]
  | anon slot => cases hk
  | file g span dirty => rfl

/-- Moves that a program cannot see change no cell. -/
theorem cell_of_hidden (h : l.Sound) (hm : l.Hidden l') : l'.cell = l.cell := by
  funext o
  cases hm with
  | sweep | mark | rerun | remap =>
      exact cell_congr h rfl (fun _ _ _ hq => ⟨hq, rfl⟩) fun _ _ => rfl
  | pin f =>
      exact cell_congr h rfl
        (fun g _ _ hq => ⟨(congrFun FrameTable.phys?_pin g).trans hq, rfl⟩) fun _ _ => rfl
  | unpin f =>
      exact cell_congr h rfl
        (fun g _ _ hq => ⟨(congrFun FrameTable.phys?_unpin g).trans hq, rfl⟩) fun _ _ => rfl
  | grow p ps hfree =>
      exact cell_congr h rfl (fun g q _ hq => ⟨phys?_grow hq, rfl⟩) fun _ _ => rfl
  | scribble f p b hf =>
      exact cell_congr h rfl
        (fun g q hg hq => ⟨hq, bytes_other h hf.1 hq (home?_ne_spare h hf hg)⟩) fun _ _ => rfl
  | saveAnon id page f p s hpage hf hc hp hs ht =>
      by_cases ho : o = id
      · subst ho
        rw [cell_inFrame ⟨hpage, hf, hp⟩, hc,
          cell_eq { page with frame? := none, content := .anon (some s) } (Function.update_self ..)]
        simp [held?, home?, slot?, leave, Page.slot?, Content.cell]
      · refine cell_congr h (Function.update_of_ne ho ..)
          (fun g _ _ hq => ⟨(congrFun FrameTable.phys?_unbind g).trans hq, rfl⟩) fun t hs' => ?_
        refine Function.update_of_ne ?_ ..
        rintro rfl
        rw [h.test_slot hs'] at ht
        cases ht
  | keepAnon id page f stored hpage hf hc hs =>
      exact cell_congr h rfl (fun _ _ _ hq => ⟨hq, rfl⟩) fun s hs' => hs s (h.test_slot hs')
  | saveFile id page f p g span dirty hpage hf hc hp =>
      by_cases ho : o = id
      · subst ho
        rw [cell_file { page with frame? := none, content := .file g span false }
          (Function.update_self ..) rfl, cell_file page hpage (by rw [Page.kind, hc])]
        simp only [Page.span, hc]
      · exact cell_of_leave h ho
  | keepFile id page f p g span dirty k hpage hf hc hp hd =>
      by_cases ho : o = id
      · subst ho
        rw [cell_file { page with content := .file g span true }
          (Function.update_self ..) rfl, cell_file page hpage (by rw [Page.kind, hc])]
        simp only [Page.span, hc]
      · exact cell_congr h (Function.update_of_ne ho ..) (fun _ _ _ hq => ⟨hq, rfl⟩) fun _ _ => rfl
  | swapIn id page f p s hpage hn hc hf =>
      by_cases ho : o = id
      · subst ho
        have hin : InFrame (l.settle o page f p (.anon none) (l.stored s)) o
            { page with frame? := some f, content := .anon none } f p :=
          ⟨Function.update_self .., rfl, (congrFun FrameTable.phys?_bind f).trans hf.1⟩
        apply (cell_inFrame hin).trans
        rw [cell_eq page hpage, hc, settle]
        simp [held?, home?, slot?, hpage, hn, hc, Page.slot?, Content.cell]
      · exact cell_of_settle h hf ho
  | readIn id page f p g hpage hn hg hfit hf =>
      by_cases ho : o = id
      · subst ho
        rw [cell_file { page with frame? := some f, content := .file g page.span false }
          (Function.update_self ..) rfl, cell_file page hpage (Page.kind_of_segment? hg)]
        rfl
      · exact cell_of_settle h hf ho

theorem cell_of_rearranged (h : l.Sound) (hm : l.Rearranged l') : l'.cell = l.cell := by
  induction hm with
  | refl => rfl
  | tail hr hm ih => rw [cell_of_hidden (h.of_rearranged hr) hm, ih]

theorem cell_of_rewrite (h : l.Sound) (hf : l.InFrame id page f p) (b : PageBytes)
    (entry : PageId → Option Entry) :
    cell { l with entry := entry, bytes := Function.update l.bytes p b } =
      Function.update l.cell id ((l.cell id).map (Cell.modify (fun _ => b))) := by
  funext o
  by_cases ho : o = id
  · subst ho
    have hin : InFrame { l with entry := entry, bytes := Function.update l.bytes p b } o page f p :=
      hf
    rw [Function.update_self, cell_inFrame hin, cell_inFrame hf, Option.map_some]
    simp only [Function.update_self]
    cases page.content with
    | unloaded kind => cases kind <;> rfl
    | anon => rfl
    | file => rfl
  · rw [Function.update_of_ne ho]
    exact cell_congr h rfl (fun g q hg hq =>
      ⟨hq, bytes_other h hf.2.2 hq (home?_ne_of_ne h hf.home?_eq ho hg)⟩) fun _ _ => rfl

theorem cell_of_forget (h : l.Sound) {l' : Layout} (hpage : l'.page = (l.forget id).page)
    (hphys : l'.phys? = l.phys?) (hb : l'.bytes = l.bytes) (hs : l'.stored = l.stored) :
    l'.cell = Function.update l.cell id none := by
  funext o
  by_cases ho : o = id
  · subst ho
    rw [Function.update_self, cell_eq_none, hpage]
    exact Function.update_self ..
  · rw [Function.update_of_ne ho]
    refine cell_congr h ?_ (fun g q _ hq => ⟨(congrFun hphys g).trans hq, congrFun hb q⟩)
      fun s _ => congrFun hs s
    rw [hpage]
    exact Function.update_of_ne ho ..

theorem cell_of_step (h : l.Sound) (hm : l.ChangeStep c l') : l'.cell = c.apply l.cell := by
  cases hm with
  | register id page hpage hl hh =>
      funext o
      by_cases ho : o = id
      · subst ho
        rw [cell_eq page (Function.update_self ..), Change.apply, Function.update_self]
        cases hc : page.content with
        | unloaded kind => cases kind <;> rfl
        | anon => simp [Page.loaded, hc] at hl
        | file => rfl
      · rw [Change.apply, Function.update_of_ne ho]
        exact cell_congr h (Function.update_of_ne ho ..) (fun _ _ _ hq => ⟨hq, rfl⟩) fun _ _ => rfl
  | load id page loader span f p b hpage hn hc hf hb =>
      funext o
      by_cases ho : o = id
      · subst ho
        have hin : InFrame (l.settle o page f p (.anon none) b) o
            { page with frame? := some f, content := .anon none } f p :=
          ⟨Function.update_self .., rfl, (congrFun FrameTable.phys?_bind f).trans hf.1⟩
        rw [cell_inFrame hin, Change.apply, Function.update_self, settle]
        simp only [Function.update_self]
        rfl
      · rw [Change.apply, Function.update_of_ne ho]
        exact cell_of_settle h hf ho
  | refresh id page f p hf =>
      funext o
      exact cell_congr h rfl (fun _ _ _ hq => ⟨hq, rfl⟩) fun _ _ => rfl
  | store id page f p i bs hf hw he =>
      rw [cell_of_rewrite h hf, Change.apply, cell_inFrame hf]
      cases page.content with
      | unloaded kind => cases kind <;> rfl
      | anon => rfl
      | file => rfl
  | fill id page f p b hf hb => exact cell_of_rewrite h hf b l.entry
  | destroyIdle id page => exact cell_of_forget h rfl rfl rfl rfl
  | destroySlot id page s => exact cell_of_forget h rfl rfl rfl rfl
  | destroyFrame id page f => exact cell_of_forget h rfl FrameTable.phys?_unbind rfl rfl
  | destroyFile id page f => exact cell_of_forget h rfl FrameTable.phys?_unbind rfl rfl
  | destroyLost id page f => exact cell_of_forget h rfl FrameTable.phys?_unbind rfl rfl

/-- A course changes the cells as its changes say. -/
theorem cell_of_course (h : l.Sound) (hm : l.Course cs l') :
    l'.cell = cs.foldl (fun φ c => c.apply φ) l.cell := by
  induction hm with
  | nil hr => exact cell_of_rearranged h hr
  | cons hr hc _ ih =>
      have h₁ := h.of_rearranged hr
      rw [List.foldl_cons, ih (h₁.of_step hc), cell_of_step h₁ hc, cell_of_rearranged h hr]

theorem cell_of_course_other (h : l.Sound) (hm : l.Course cs l')
    (ho : ∀ c ∈ cs, o ≠ c.target) : l'.cell o = l.cell o := by
  rw [cell_of_course h hm, Change.foldl_apply_other ho]

end Layout

end Pager
