import Pager.Proofs.Asking
import Pager.Proofs.Retrying

namespace Pager

open Step

/-- What matters to the changes of the pages of files: a page was registered, bytes
were stored in a page of some kind, and a page was written to its file, as a whole
or not. -/
inductive Deed
  | registered (id : PageId) (page : Page)
  | stored (p : Piece) (k : Kind)
  | wrote (id : PageId) (g : Segment) (bs : List UInt8) (whole : Bool)

def Deed.piece? : Deed → Option Piece
  | stored p _ => some p
  | _ => none

def Change.Mild : Change → Prop
  | register _ _ | store _ _ _ => False
  | _ => True

theorem Change.Fills.mild {id : PageId} {c : Change} (h : c.Fills id) : c.Mild := by
  cases c <;> trivial

def Layout.Milder (l l' : Layout) : Prop := ∃ cs, l.Course cs l' ∧ ∀ c ∈ cs, c.Mild

theorem Layout.Rearranged.milder {l l' : Layout} (h : l.Rearranged l') : l.Milder l' :=
  ⟨[], .nil h, by simp⟩

namespace Machine

variable {m t u : Machine} {id : PageId} {page : Page} {s src dst : SpaceId} {a sp : VirtAddr}
  {v : VirtPage}

def DeedStep (m : Machine) : Deed → Machine → Prop
  | .registered id page, t => m.layout.ChangeStep (.register id page) t.layout ∧ Unasked m t
  | .stored p k, t => m.layout.ChangeStep (.store p.id p.start p.bytes) t.layout ∧ Unasked m t ∧
      ∃ page, m.layout.page p.id = some page ∧ page.kind = k
  | .wrote id g bs whole, t => m.layout.Milder t.layout ∧ m.WritesOut id g bs whole t

/-- These deeds were done, one after the other, and nothing else that matters. -/
inductive DeedTrace : Machine → List Deed → Machine → Prop
  | nil (m : Machine) : DeedTrace m [] m
  | calm {m t u : Machine} {ds : List Deed} (h : m.layout.Milder t.layout) (hs : Unasked m t)
      (hd : DeedTrace t ds u) : DeedTrace m ds u
  | deed {m t u : Machine} {d : Deed} {ds : List Deed} (h : m.DeedStep d t)
      (hd : DeedTrace t ds u) : DeedTrace m (d :: ds) u

theorem DeedTrace.append {ds es : List Deed} (h : DeedTrace m ds t) (h' : DeedTrace t es u) :
    DeedTrace m (ds ++ es) u := by
  induction h with
  | nil => exact h'
  | calm hc hs _ ih => exact .calm hc hs (ih h')
  | deed ha _ ih => exact .deed ha (ih h')

theorem DeedStep.course {d : Deed} (h : m.DeedStep d t) : ∃ cs, m.layout.Course cs t.layout := by
  cases d with
  | registered => exact ⟨_, .single h.1⟩
  | stored => exact ⟨_, .single h.1⟩
  | wrote => exact h.1.imp fun _ => And.left

/-- What was done was not to store anything. -/
def StorelessTrace (m t : Machine) : Prop := ∃ ds, DeedTrace m ds t ∧ ds.filterMap Deed.piece? = []

instance : IsPreorder Machine StorelessTrace where
  refl m := ⟨[], .nil m, rfl⟩
  trans _ _ _ := by
    rintro ⟨ds, hd, hp⟩ ⟨es, he, hq⟩
    exact ⟨ds ++ es, hd.append he, by rw [List.filterMap_append, hp, hq, List.append_nil]⟩

theorem DeedStep.storelessTrace {d : Deed} (h : DeedStep m d t) (hd : d.piece? = none) :
    StorelessTrace m t :=
  ⟨[d], .deed h (.nil t), List.filterMap_cons_none hd⟩

theorem storelessTrace_calm (h : m.layout.Milder t.layout) (hs : Unasked m t) :
    StorelessTrace m t :=
  ⟨[], .calm h hs (.nil t), rfl⟩

theorem Asks.storelessTrace (h : Asks m t) (hl : m.layout.Milder t.layout) :
    StorelessTrace m t := by
  rcases h with hs | ⟨id, g, bs, whole, hw⟩
  · exact storelessTrace_calm hl hs
  · exact DeedStep.storelessTrace (d := .wrote id g bs whole) ⟨hl, hw⟩ rfl

/-- From a sound state without pinned frames the system comes to such a state
again, and nothing is stored. -/
def SoundStoreless (m t : Machine) : Prop :=
  m.layout.Sound → m.layout.Unpinned → t.layout.Sound ∧ t.layout.Unpinned ∧ StorelessTrace m t

instance : IsPreorder Machine SoundStoreless where
  refl m hs hu := ⟨hs, hu, refl_of StorelessTrace m⟩
  trans _ _ _ h h' hs hu := by
    obtain ⟨hst, hut, hd⟩ := h hs hu
    obtain ⟨hsu, huu, hd'⟩ := h' hst hut
    exact ⟨hsu, huu, trans_of StorelessTrace hd hd'⟩

theorem storeless_same (hl : t.layout = m.layout) (hf : Unasked m t) : SoundStoreless m t := by
  intro hs hu
  refine ⟨hl ▸ hs, hl ▸ hu, storelessTrace_calm ?_ hf⟩
  rw [hl]
  exact Layout.Rearranged.milder (.refl _)

theorem Asks.soundStoreless (h : Asks m t) {cs : List Change}
    (hw : m.layout.UnpinnedCourse cs t.layout) (hcs : ∀ c ∈ cs, c.Mild) : SoundStoreless m t :=
  fun hs _ => ⟨hs.of_course hw.course, hw.unpinned, h.storelessTrace ⟨cs, hw.course, hcs⟩⟩

theorem leads_storeless {α : Type} {x : Step Machine α}
    (h : ∀ m, m.layout.Sound → m.layout.Unpinned →
      Ends x m (fun _ t => SoundStoreless m t) (fun _ t => SoundStoreless m t)) :
    Leads SoundStoreless x := by
  intro m
  by_cases hm : m.layout.Sound ∧ m.layout.Unpinned
  · exact h m hm.1 hm.2
  · exact (ends_self x m).mono (fun _ _ _ hs hu => absurd ⟨hs, hu⟩ hm)
      fun _ _ _ hs hu => absurd ⟨hs, hu⟩ hm

theorem note_storeless {e : Event} (h : e.isLoss = false) : Leads SoundStoreless (note e) :=
  leads_modify fun m => storeless_same (layout_emit m h) (unasked_of_eq rfl)

theorem requireOr_storeless (c : Bool) {v : Event} (h : v.isLoss = false) (e : Errno) :
    Leads SoundStoreless (requireOr c v e) := by
  rw [requireOr]
  split
  · exact leads_pure ()
  · exact (note_storeless h).bind fun _ => leads_fail e

theorem demandHead_storeless (id : PageId) (n : Nat) : Leads SoundStoreless (demandHead id n) :=
  leads_get.bind fun _ => leads_demand _ _

theorem claimPage_storeless (hs : m.layout.Sound) (hu : m.layout.Unpinned)
    (hpage : m.layout.page id = some page) :
    Ends (claimPage id page) m (fun _ t => SoundStoreless m t) (fun _ t => SoundStoreless m t) := by
  refine ((claimPage_ends hs hu hpage).and (claimPage_asks hs hu hpage)).mono ?_ ?_
  · rintro _ t ⟨⟨cs, hc, hut⟩, h⟩
    refine h.soundStoreless ⟨hc.course, hut⟩ fun c hmem => ?_
    rcases hc.loads with hl | ⟨rfl, -⟩
    · exact (hl.fills c hmem).mild
    · rw [List.mem_singleton.mp hmem]
      trivial
  · rintro e t ⟨⟨-, v, hv⟩, h⟩
    exact h.soundStoreless (hv.aborted hu).unpinnedCourse (by simp)

theorem claim_storeless (s : SpaceId) (a : VirtAddr) : Leads SoundStoreless (claim s a) := by
  refine leads_storeless fun m hs hu => ?_
  rw [claim, ends_bind, ends_get]
  cases hpage : m.find? s a with
  | none => exact refl_of SoundStoreless m
  | some page => exact claimPage_storeless hs hu hpage

theorem register_unasked (id : PageId) (page : Page) : Leads Unasked (register id page) := by
  refine leads_get.bind fun m => (leads_require _ _).bind fun _ m => ?_
  simp only [insert, ends_bind, ends_get, ends_ofExcept, ends_set]
  exact ⟨fun _ _ => unasked_of_eq rfl, fun _ _ => refl_of Unasked m⟩

theorem register_storeless (id : PageId) (hl : page.loaded = false)
    (hh : Layout.WellFormed id.page page) :
    Leads SoundStoreless (register id page) := by
  intro m
  refine ((register_ends hl hh).and (register_unasked id page m)).mono ?_ ?_
  · rintro _ t ⟨hr, hf⟩ hs hu
    exact ⟨hs.of_step hr, hr.of_register.2.2.2 hu,
      DeedStep.storelessTrace (d := .registered id page) ⟨hr, hf⟩ rfl⟩
  · rintro e t ⟨⟨-, hl⟩, hf⟩
    exact storeless_same hl hf

theorem alloc_storeless (s : SpaceId) (type : PageType) (a : VirtAddr) (writable : Bool)
    (loader : Option Loader) : Leads SoundStoreless (alloc s type a writable loader) := by
  cases type with
  | uninit | pageCache => exact leads_fail _
  | anon | file => exact register_storeless _ rfl (Layout.wellFormed_unloaded ..)

theorem setUpStack_storeless (s : SpaceId) : Leads SoundStoreless (setUpStack s) :=
  leads_get.bind fun _ => (leads_ofOption _ _).bind fun _ =>
    (alloc_storeless _ _ _ _ _).bind fun _ => (claim_storeless _ _).bind fun _ => leads_pure _

theorem growStack_storeless (s : SpaceId) (a : VirtAddr) : Leads SoundStoreless (growStack s a) :=
  (note_storeless rfl).bind fun _ => (alloc_storeless _ _ _ _ _).bind fun _ => claim_storeless _ _

theorem handleFault_storeless (s : SpaceId) (a : VirtAddr) (flags : FaultFlags) (sp : VirtAddr) :
    Leads SoundStoreless (handleFault s a flags sp) := by
  refine (note_storeless rfl).bind fun _ => leads_storeless fun m hs hu => ?_
  rw [ends_bind, ends_get]
  have hrefuse (v : Event) (hv : v.isLoss = false) : SoundStoreless m (m.emit v) :=
    storeless_same (layout_emit m hv) (unasked_of_eq rfl)
  simp only [ends_bind, ends_requireOr]
  refine ⟨fun _ => ⟨fun _ => ?_, fun _ => hrefuse _ rfl⟩, fun _ => hrefuse _ rfl⟩
  cases hpage : m.find? s a with
  | none =>
      exact ((requireOr_storeless _ rfl _).bind fun _ => growStack_storeless s a) m
  | some page =>
      simp only [ends_bind, ends_requireOr]
      exact ⟨fun _ => claimPage_storeless hs hu hpage, fun _ => hrefuse _ rfl⟩

/-- An access marks its page at the end, if it comes that far. -/
theorem touch_marked (write : Bool) (n : Nat) (m : Machine) :
    Ends (touch s a write sp n) m
      (fun _ t => ∃ u, SoundStoreless m u ∧ t = u.mark ⟨s, a.page⟩ write)
      (fun _ t => SoundStoreless m t) := by
  induction n generalizing m with
  | zero => exact refl_of SoundStoreless m
  | succ n ih =>
      rw [ends_touch]
      split
      · exact ⟨m, refl_of SoundStoreless m, rfl⟩
      · refine (handleFault_storeless _ _ _ _ m).mono (fun _ t h => ?_) fun _ _ h => h
        refine (ih t).mono ?_ fun _ _ h' => trans_of SoundStoreless h h'
        rintro p _ ⟨u, hu, rfl⟩
        exact ⟨u, trans_of SoundStoreless h hu, rfl⟩

theorem unasked_mark (m : Machine) (id : PageId) (write : Bool) : Unasked m (m.mark id write) :=
  unasked_of_eq (by cases write <;> rfl)

theorem storeless_mark (m : Machine) (id : PageId) : SoundStoreless m (m.mark id false) := by
  intro hs hu
  have hl : m.layout.Rearranged (m.mark id false).layout := by
    rw [layout_mark]
    exact .single (.mark id)
  refine ⟨hs.of_rearranged hl, ?_, storelessTrace_calm hl.milder (unasked_mark m id false)⟩
  rw [layout_mark]
  exact hu

theorem readPiece_storeless (s : SpaceId) (a sp : VirtAddr) (n : Nat) :
    Leads SoundStoreless (readPiece s a sp n) := by
  intro m
  rw [readPiece, ends_bind]
  refine (touch_marked false retries m).mono ?_ fun _ _ h => h
  rintro p _ ⟨u, hu, rfl⟩
  have hread : Leads SoundStoreless (do let b ← readFrame p; pure (Bytes.slice b a.offset n)) :=
    (leads_get.bind fun _ => leads_ofExcept _).bind fun _ => leads_pure _
  have hmark := trans_of SoundStoreless hu (storeless_mark u ⟨s, a.page⟩)
  exact (hread _).mono (fun _ _ h => trans_of SoundStoreless hmark h)
    fun _ _ h => trans_of SoundStoreless hmark h

theorem readFrom_storeless (s : SpaceId) (a sp : VirtAddr) (k len : Nat)
    (x : Machine × List UInt8) :
    Ends (readFrom s a sp k len) x (fun _ y => SoundStoreless x.1 y.1)
      (fun _ y => SoundStoreless x.1 y.1) := by
  induction len using Nat.strong_induction_on generalizing k x with
  | _ len ih =>
  rw [readFrom]
  split
  next => exact refl_of SoundStoreless x.1
  next hlen =>
    cases a.add? k with
    | none => exact refl_of SoundStoreless x.1
    | some cur =>
        dsimp only
        rw [ends_bind, ends_zoom]
        refine (readPiece_storeless s cur sp _ x.1).mono (fun bs t h => ?_) fun _ _ h => h
        rw [ends_bind, ends_modify]
        have hlt : len - inPage cur len < len := by
          have := inPage_pos cur (Nat.pos_of_ne_zero hlen)
          omega
        exact (ih _ hlt _ _).mono (fun _ _ h' => trans_of SoundStoreless h h')
          fun _ _ h' => trans_of SoundStoreless h h'

theorem writePiece_stores (hs : m.layout.Sound) (hu : m.layout.Unpinned) (bs : List UInt8) :
    Ends (writePiece s a sp bs) m
      (fun _ t => ∃ u k, StorelessTrace m u ∧ u.DeedStep (.stored ⟨⟨s, a.page⟩, a.offset, bs⟩ k) t)
      (fun _ t => StorelessTrace m t) := by
  simp only [writePiece, ends_bind]
  refine ((touch_ends hs hu true 0).and (touch_marked true (0 + 2) m)).mono ?_
    fun _ _ h => (h.2 hs hu).2.2
  rintro p t ⟨⟨cs, l, -, hw, page, f, hmap, hwr, hl⟩, u, hmu, rfl⟩
  have hr := inRange_touched hs hw hmap hl
  obtain ⟨hin, e, he, -⟩ := hmap
  rw [ends_readFrame hr, ends_writeFrame hr]
  have hsame := (layout_mark ⟨s, a.page⟩ true).symm.trans hl
  have hin' : u.layout.InFrame ⟨s, a.page⟩ page f p := by
    refine ⟨(congrFun (congrArg Layout.page hsame) _).trans hin.1, hin.2.1, ?_⟩
    exact (congrFun (congrArg (fun x => x.frames.phys?) hsame) f).trans hin.2.2
  have he' : (u.layout.entry ⟨s, a.page⟩).isSome := by
    have := congrArg Option.isSome (congrFun (congrArg Layout.entry hsame) ⟨s, a.page⟩)
    simpa [touched, he] using this
  have hbytes : (u.mark ⟨s, a.page⟩ true).ram.bytes p = u.layout.bytes p :=
    congrFun (congrArg Layout.bytes (layout_mark _ true)) p
  have hstore := touched_step hin' (hwr rfl) he' a.offset bs
  refine ⟨u.mark ⟨s, a.page⟩ false, page.kind, ?_, ?_, ?_, page, ?_, rfl⟩
  · exact (trans_of SoundStoreless hmu (storeless_mark u _) hs hu).2.2
  · rw [layout_store _ hr, hbytes, layout_mark, layout_mark]
    exact hstore
  · exact unasked_of_eq rfl
  · rw [layout_mark]
    exact hin'.1

theorem writeFrom_deedTrace (hs : m.layout.Sound) (hu : m.layout.Unpinned) (k : Nat)
    (data : List UInt8) :
    Ends (writeFrom s a sp k data) m
      (fun _ t => ∃ ds, DeedTrace m ds t ∧
        ds.filterMap Deed.piece? = (writeTrail s a sp k data m).map Prod.fst)
      (fun _ t => ∃ ds, DeedTrace m ds t ∧
        ds.filterMap Deed.piece? = (writeTrail s a sp k data m).map Prod.fst) := by
  fun_induction writeTrail s a sp k data m with
  | case1 =>
      rw [writeFrom, dif_pos rfl]
      exact ⟨[], .nil _, rfl⟩
  | case2 k data m hd ha =>
      rw [writeFrom, dif_neg hd, ha]
      exact ⟨[], .nil _, rfl⟩
  | case3 k data m hd cur ha e t hx =>
      rw [writeFrom, dif_neg hd, ha, ends_bind, ends_of_error hx]
      exact (writePiece_stores hs hu _).of_error hx
  | case4 k data m hd cur ha _ t hx ih =>
      rw [writeFrom, dif_neg hd, ha, ends_bind, ends_of_ok hx]
      obtain ⟨cs, -, hw⟩ := (writePiece_ends hs hu _).of_ok hx
      obtain ⟨u, kind, ⟨ds, hds, hnone⟩, hstore⟩ := (writePiece_stores hs hu _).of_ok hx
      have hpiece {v : Machine} {es : List Deed} {ps : List Piece} (he : DeedTrace t es v)
          (hp : es.filterMap Deed.piece? = ps) :
          ∃ ds, DeedTrace m ds v ∧ ds.filterMap Deed.piece? =
            ⟨⟨s, cur.page⟩, cur.offset, data.take (inPage cur data.length)⟩ :: ps := by
        refine ⟨ds ++ .stored _ kind :: es, hds.append (.deed hstore he), ?_⟩
        rw [List.filterMap_append, hnone, List.nil_append, List.filterMap_cons, hp]
        rfl
      refine (ih (hs.of_course hw.course) hw.unpinned).mono ?_ ?_
      · rintro _ v ⟨es, he, hp⟩
        exact hpiece he hp
      · rintro _ v ⟨es, he, hp⟩
        exact hpiece he hp

theorem removePage_storeless (id : PageId) : Leads SoundStoreless (removePage id) := by
  refine leads_storeless fun m hs hu => ?_
  refine ((removePage_ends hs hu).and (removePage_asks hs id)).mono ?_ fun _ _ h => h.1.elim
  rintro _ t ⟨⟨cs, hcs, hw, -⟩, h⟩
  refine h.soundStoreless hw fun c hc => ?_
  rw [hcs c hc]
  trivial

theorem removeAll_storeless (s : SpaceId) (vs : List VirtPage) :
    Leads SoundStoreless (removeAll s vs) := by
  induction vs with
  | nil => exact leads_pure ()
  | cons v vs ih => exact (removePage_storeless _).discard.bind fun _ => ih

theorem killInOrder_storeless (s : SpaceId) (order : List VirtPage) :
    Leads SoundStoreless (killInOrder s order) := by
  refine leads_get.bind fun _ => (removeAll_storeless s order).bind fun _ => ?_
  split
  · exact note_storeless rfl
  · exact leads_pure ()

theorem dropInOrder_storeless (hs : m.layout.Sound) (hu : m.layout.Unpinned)
    {order : List VirtPage} (ho : order.Perm (m.pages s).keys) :
    Ends (do killInOrder s order; modify (setSpace s default) : Step Machine Unit) m
      (fun _ t => SoundStoreless m t) (fun _ t => SoundStoreless m t) := by
  rw [ends_bind]
  refine ((killInOrder_ends hs hu ho).and (killInOrder_storeless s order m)).mono ?_
    fun _ _ h => h.2
  rintro _ t ⟨⟨cs, -, hw, hp⟩, h⟩
  have hv : t.layout.Vacant s := fun v => by rw [hp]; exact if_pos rfl
  exact trans_of SoundStoreless h (storeless_same
    (layout_setSpace_vacant (hs.of_course hw.course) hv rfl rfl) (unasked_of_eq rfl))

theorem drop_storeless (s : SpaceId) : Leads SoundStoreless (drop s) :=
  leads_storeless fun _ hs hu => ends_drop.mpr (dropInOrder_storeless hs hu (.refl _))

theorem removeFrom_storeless (s : SpaceId) (start : VirtPage) (is : List Nat) :
    Leads SoundStoreless (removeFrom s start is) := by
  induction is with
  | nil => exact leads_pure ()
  | cons i is ih =>
      exact (leads_ofOption _ _).bind fun _ => (removePage_storeless _).discard.bind fun _ => ih

theorem munmap_storeless (s : SpaceId) (a : VirtAddr) : Leads SoundStoreless (munmap s a) := by
  refine leads_get.bind fun m => ?_
  cases m.find? s a with
  | none => exact leads_pure ()
  | some page => exact (removeFrom_storeless _ _ _).bind fun _ => note_storeless rfl

theorem copyResident_storeless (hs : m.layout.Sound) (hu : m.layout.Unpinned) (hne : parent ≠ child)
    (hpage : m.layout.page child = some page) (hn : page.frame? = none)
    (hseg : ∀ g, page.segment? = some g → m.layout.segment? parent = some g) :
    Ends (copyResident parent child) m (fun _ t => SoundStoreless m t)
      (fun _ t => SoundStoreless m t) := by
  refine ((copyResident_ends hs hu hne hpage hn hseg).and
    (copyResident_asks hs hu hpage hn)).mono ?_ ?_
  · rintro _ t ⟨⟨f, c, cs, b, w, -, -, hl, hw, -⟩, h⟩
    exact h.soundStoreless hw fun c hc => (Layout.fills_snoc hl.fills c hc).mild
  · rintro e t ⟨⟨-, cs, hcs, hw, -⟩, h⟩
    exact h.soundStoreless hw fun c hc => (hcs c hc).mild

theorem copyRegistered_storeless (page : Page) (hs : m.layout.Sound) (hu : m.layout.Unpinned)
    (hne : src ≠ dst) (hl : page.loaded = false) (hh : Layout.WellFormed v page) (n : Nat)
    (hseg : ∀ g, page.segment? = some g → m.layout.segment? ⟨src, v⟩ = some g) :
    Ends (do
        register ⟨dst, v⟩ page
        demandHead ⟨dst, v⟩ n
        copyResident ⟨src, v⟩ ⟨dst, v⟩ : Step Machine Unit) m
      (fun _ t => SoundStoreless m t) (fun _ t => SoundStoreless m t) := by
  have hsrc : (⟨src, v⟩ : PageId) ≠ ⟨dst, v⟩ := by simp [hne]
  have hn : page.frame? = none := hh.coherent.frame?_of_unloaded hl
  rw [ends_bind]
  have hreg : Ends (register ⟨dst, v⟩ page) m _ _ := register_ends hl hh
  refine (hreg.and (register_storeless ⟨dst, v⟩ hl hh m)).mono ?_ fun _ _ h => h.2
  rintro _ t ⟨hr, h⟩
  have hcopy : Ends (copyResident ⟨src, v⟩ ⟨dst, v⟩) t (fun _ u => SoundStoreless m u)
      (fun _ u => SoundStoreless m u) := by
    refine (copyResident_storeless (hs.of_step hr) (hr.of_register.2.2.2 hu) hsrc
      hr.of_register.2.2.1 hn fun g hg => ?_).mono (fun _ _ => trans_of SoundStoreless h)
      fun _ _ => trans_of SoundStoreless h
    rw [Layout.segment?_of_register hr, Function.update_of_ne hsrc]
    exact hseg g hg
  simp only [ends_bind, demandHead, ends_get, ends_demand]
  exact ⟨fun _ => hcopy, fun _ => h⟩

theorem copyPage_storeless (hne : src ≠ dst) (v : VirtPage) :
    Leads SoundStoreless (copyPage src dst v) := by
  refine leads_storeless fun m hs hu => ?_
  have hlazy {q : Page} (hl : q.loaded = false) (hq : Layout.WellFormed v q) (n : Nat) :
      Ends (do register ⟨dst, v⟩ q; demandHead ⟨dst, v⟩ n : Step Machine Unit) m
        (fun _ t => SoundStoreless m t) (fun _ t => SoundStoreless m t) :=
    ((register_storeless ⟨dst, v⟩ hl hq).bind fun _ => demandHead_storeless _ n) m
  rw [copyPage, ends_bind, ends_get]
  cases hget : m.page? ⟨src, v⟩ with
  | none => exact refl_of SoundStoreless m
  | some page =>
      have hpage : m.layout.page ⟨src, v⟩ = some page := hget
      have hh := hs.pages _ page hpage
      cases hc : page.content with
      | unloaded kind loader span =>
          simp only [hc, ← hh.coherent.eq_unloaded hc]
          exact hlazy (by rw [Page.loaded, hc]) hh span
      | anon slot =>
          have hcopy := copyRegistered_storeless (.unloaded page.writable .anon none 0) hs hu hne
            rfl (Layout.wellFormed_unloaded v ..) 0 (by rintro _ ⟨⟩)
          simpa [hc, demandHead, ends_bind] using hcopy
      | file g span dirty =>
          have hq := hh.unload hc (some (.segment g))
          simp only [hc]
          split
          case isFalse => simpa [ends_bind] using hlazy rfl hq span
          case isTrue =>
              refine copyRegistered_storeless _ hs hu hne rfl hq span ?_
              rintro _ ⟨⟩
              rw [Layout.segment?, hpage, Option.bind_some, Page.segment?, hc]

theorem copyInOrder_storeless (hne : src ≠ dst) (order : List VirtPage) :
    Leads SoundStoreless (copyInOrder src dst order) := by
  have hpages : Leads SoundStoreless (copyPages src dst order) := by
    induction order with
    | nil => exact leads_pure ()
    | cons v vs ih => exact (copyPage_storeless hne v).bind fun _ => ih
  exact hpages.bind fun _ => leads_get.bind fun _ => note_storeless rfl

theorem forkInOrder_storeless (hs : m.layout.Sound) (hv : m.layout.Vacant dst) (hne : src ≠ dst)
    (refusals : Trap) (order : List VirtPage) :
    Ends (forkInOrder src dst refusals order) m (fun _ t => SoundStoreless m t)
      (fun _ t => SoundStoreless m t) := by
  have hnew : SoundStoreless m (m.create dst refusals) :=
    storeless_same (layout_create hs hv refusals) (unasked_of_eq rfl)
  rw [forkInOrder, ends_bind, ends_modify]
  exact (((copyInOrder_storeless hne order).onFailure (drop_storeless dst)) _).mono
    (fun _ _ => trans_of SoundStoreless hnew) fun _ _ => trans_of SoundStoreless hnew

theorem registerAll_storeless {start : VirtPage} {page : Nat → Page}
    (hl : ∀ i, (page i).loaded = false) (is : List Nat)
    (hh : ∀ i ∈ is, ∀ v, start.add? i = some v → Layout.WellFormed v (page i))
    (done : List VirtPage) : Leads SoundStoreless (registerAll s start page done is) := by
  induction is generalizing done with
  | nil => exact leads_pure ()
  | cons i is ih =>
      rw [registerAll]
      cases hv : start.add? i with
      | none => exact leads_halt _
      | some v =>
          have hreg : Leads SoundStoreless (register ⟨s, v⟩ (page i)) :=
            register_storeless _ (hl i) (hh i (by simp) v hv)
          exact (hreg.handle fun e => (removeAll_storeless s _).bind fun _ => leads_fail e).bind
            fun _ => ih (fun j hj => hh j (List.mem_cons_of_mem _ hj)) (v :: done)

theorem reopen_storeless (file : FileId) : Leads SoundStoreless (onFile file File.reopen) :=
  leads_zoom File.reopen_unasked fun m _ h =>
    storeless_same (layout_withFile_same m h.data) (unasked_withFile h)

theorem mmap_storeless (s : SpaceId) (a : VirtAddr) (len : Nat) (writable : Bool) (file : FileId)
    (offset : Nat) : Leads SoundStoreless (mmap s a len writable file offset) := by
  intro m
  simp only [mmap, ends_bind, ends_get, ends_require, ends_requireOr]
  refine ⟨fun _ => ⟨fun _ => ⟨fun _ => ⟨fun hlt => ⟨fun _ => ?_, fun _ => ?_⟩, fun _ => ?_⟩,
    fun _ => ?_⟩, fun _ => ?_⟩, fun _ => ?_⟩
  · have hb : a.page.toNat + pagesFor len ≤ wordBound :=
      toNat_page_add_pagesFor (of_decide_eq_true hlt)
    have hpages : Leads SoundStoreless (registerAll s a.page
        (mappedPages (m.files.get file).data len writable file offset) []
        (List.range (pagesFor len))) :=
      registerAll_storeless (fun _ => rfl) _ (fun i hi v hv => ?_) []
    · have hrest := ((reopen_storeless file).bind fun _ => hpages.bind fun _ =>
        (demandHead_storeless ⟨s, a.page⟩ (pagesFor len)).bind fun _ =>
          (note_storeless (e := .mapped (pagesFor len) a offset) rfl).bind fun _ => leads_pure a) m
      simp only [ends_bind] at hrest
      exact hrest
    · have hlt := List.mem_range.mp hi
      rw [VirtPage.add?_eq_some (by omega)] at hv
      rw [← Option.some.inj hv]
      exact wellFormed_mappedPages hb hlt
  · exact storeless_same (layout_emit m rfl) (unasked_of_eq rfl)
  all_goals exact refl_of SoundStoreless m

theorem mmapDescriptor_storeless (s : SpaceId) (a : VirtAddr) (len : Nat) (writable : Bool)
    (fd : Nat) (fds : Descriptors) (offset : Nat) :
    Leads SoundStoreless (mmapDescriptor s a len writable fd fds offset) := by
  refine (requireOr_storeless _ rfl _).bind fun _ => ?_
  cases fds.get? fd with
  | none => exact leads_fail _
  | some file => exact mmap_storeless _ _ _ _ file _

end Machine

namespace Op

open Machine

variable {m : Machine} {op : Op}

def Arms : Op → Prop
  | armFile _ _ _ _ _ _ => True
  | _ => False

theorem layout_arm (ha : op.Arms) : (op.run m).2.layout = m.layout := by
  cases op with
  | armFile => exact layout_withFile_same m rfl
  | _ => exact ha.elim

theorem writes_arm (ha : op.Arms) (f : FileId) :
    ((op.run m).2.files.get f).writes = (m.files.get f).writes := by
  cases op with
  | armFile file =>
      change ((m.files.set file _).get f).writes = _
      rw [Store.get_set]
      split
      next h => rw [h]
      next => rfl
  | _ => exact ha.elim

/-- The deeds of an operation, of which those that store bytes are the pieces that
it reports. -/
theorem run_deedTrace (hs : m.layout.Sound) (hu : m.layout.Unpinned) (ha : op.Admissible m)
    (hn : ¬op.Arms) :
    ∃ ds, DeedTrace m ds (op.run m).2 ∧ ds.filterMap Deed.piece? = (op.run m).1.stored := by
  have hperform {α : Type} {x : Step Machine α}
      (h : Ends x m (fun _ t => SoundStoreless m t) (fun _ t => SoundStoreless m t)) :
      ∃ ds, DeedTrace m ds (perform x m).2 ∧ ds.filterMap Deed.piece? = (perform x m).1.stored :=
    perform_ends (Q := fun r t => ∃ ds, DeedTrace m ds t ∧ ds.filterMap Deed.piece? = r.stored)
      (h.mono (fun _ _ h => (h hs hu).2.2) fun _ _ h => (h hs hu).2.2)
  have hsame {x : Step Machine Unit} {t : Machine} (hx : x m = .ok () t)
      (hl : t.layout = m.layout) (hf : Unasked m t) :
      ∃ ds, DeedTrace m ds (perform x m).2 ∧ ds.filterMap Deed.piece? = (perform x m).1.stored :=
    hperform ((ends_of_ok hx).mpr (storeless_same hl hf))
  cases op with
  | create s t => exact hsame rfl (layout_create hs ha t) (unasked_of_eq rfl)
  | refuse s t => exact hsame rfl (layout_setSpace_same m rfl rfl) (unasked_of_eq rfl)
  | armDisk reads writes => exact hsame rfl (layout_armDisk m reads writes) (unasked_of_eq rfl)
  | armFile => exact absurd trivial hn
  | drop s order => exact hperform (dropInOrder_storeless hs hu ha)
  | kill s order => exact hperform (killInOrder_storeless s order m)
  | munmap s a => exact hperform (munmap_storeless s a m)
  | remove s a => exact hperform (removePage_storeless _ m)
  | fork parent child refusals order =>
      exact hperform (forkInOrder_storeless hs ha.2.1 ha.1 refusals order)
  | copyFrom src dst order => exact hperform (copyInOrder_storeless ha.1 order m)
  | alloc s type a writable loader => exact hperform (alloc_storeless s type a writable loader m)
  | claim s a => exact hperform (claim_storeless s a m)
  | fault s a flags sp => exact hperform (handleFault_storeless s a flags sp m)
  | setUpStack s => exact hperform (setUpStack_storeless s m)
  | read s a len sp =>
      have h : Ends (readUser s a len sp) (m, []) _ _ := readFrom_storeless s a sp 0 len (m, [])
      change ∃ ds, DeedTrace m ds (performRead s a len sp m).2 ∧
        _ = (performRead s a len sp m).1.stored
      unfold performRead
      cases hx : readUser s a len sp (m, []) with
      | ok u t => exact (h.of_ok hx hs hu).2.2
      | error e t => exact (h.of_error hx hs hu).2.2
  | write s a data sp =>
      have h : Ends (writeUser s a data sp) m _ _ := writeFrom_deedTrace hs hu 0 data
      change ∃ ds, DeedTrace m ds (performWrite s a data sp m).2 ∧
        _ = (performWrite s a data sp m).1.stored
      unfold performWrite perform
      cases hx : writeUser s a data sp m with
      | ok u t => exact h.of_ok hx
      | error e t => exact h.of_error hx
  | mmap s a len writable file offset =>
      exact hperform (mmap_storeless s a len writable file offset m)
  | mmapDescriptor s a len writable fd fds offset =>
      exact hperform (mmapDescriptor_storeless s a len writable fd fds offset m)

end Op

end Pager
