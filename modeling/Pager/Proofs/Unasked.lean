import Pager.Machine.Access
import Pager.Machine.Fork
import Pager.Machine.Mapping
import Pager.Proofs.Devices
import Pager.Proofs.Leads

namespace Pager

open Step

structure File.Unasked (d d' : File) : Prop where
  data : d'.data = d.data
  writes : d'.writes = d.writes
  failing : d'.failingWrites = d.failingWrites
  asked : d'.shortWriteTrap = d.shortWriteTrap

namespace File.Unasked

theorem refl (d : File) : d.Unasked d := ⟨rfl, rfl, rfl, rfl⟩

theorem trans {d d' d'' : File} (h : d.Unasked d') (h' : d'.Unasked d'') : d.Unasked d'' :=
  ⟨h'.data.trans h.data, h'.writes.trans h.writes, h'.failing.trans h.failing,
    h'.asked.trans h.asked⟩

end File.Unasked

theorem File.readAt_unasked (offset len : Nat) : Leads File.Unasked (File.readAt offset len) := by
  intro d
  unfold Ends File.readAt
  rcases d.readTrap.ask with ⟨_ | _, r⟩
  · rcases d.shortReadTrap.ask with ⟨_ | _, r'⟩ <;> exact ⟨rfl, rfl, rfl, rfl⟩
  · exact ⟨rfl, rfl, rfl, rfl⟩

theorem File.reopen_unasked : Leads File.Unasked File.reopen := by
  intro d
  unfold Ends File.reopen
  rcases d.reopenTrap.ask with ⟨_ | _, r⟩ <;> exact ⟨rfl, rfl, rfl, rfl⟩

theorem Segment.load_unasked (g : Segment) (d : File) (b : PageBytes) :
    Ends g.load (d, b) (fun _ q => d.Unasked q.1) (fun _ q => d.Unasked q.1) := by
  simp only [Segment.load, ends_bind, ends_zoom, ends_modify]
  refine (File.readAt_unasked g.offset g.length d).mono (fun bs d' h => ?_) fun _ _ h => h
  split
  · exact h
  · exact h

namespace Machine

variable {m t u : Machine} {id o : PageId} {p : PhysPage} {f : FrameId} {b : PageBytes}

def Unasked (m t : Machine) : Prop := ∀ f, (m.files.get f).Unasked (t.files.get f)

instance : IsPreorder Machine Unasked where
  refl _ _ := .refl _
  trans _ _ _ h h' f := (h f).trans (h' f)

theorem unasked_of_eq (h : t.files = m.files) : Unasked m t := fun f => by rw [h]; exact .refl _

theorem unasked_withFile {k : FileId} {d : File} (h : (m.files.get k).Unasked d) :
    Unasked m (m.withFile k d) := by
  intro f
  change (m.files.get f).Unasked ((m.files.set k d).get f)
  rw [Store.get_set]
  split
  next heq =>
    subst heq
    exact h
  next => exact .refl _

/-- The pages are where they were, and no file is asked to write. -/
structure KeepsPages (m t : Machine) : Prop where
  page : t.page? = m.page?
  unasked : Unasked m t

instance : IsPreorder Machine KeepsPages where
  refl m := ⟨rfl, refl_of Unasked m⟩
  trans _ _ _ h h' := ⟨h'.page.trans h.page, trans_of Unasked h.unasked h'.unasked⟩

theorem keepsPages_of_eq (hs : t.spaces = m.spaces) (hf : t.files = m.files) : KeepsPages m t := by
  have hspace : t.space = m.space := by
    funext s
    rw [space, hs]
    rfl
  refine ⟨?_, unasked_of_eq hf⟩
  funext id
  rw [page?_eq, hspace]
  rfl

theorem keepsPages_setTable (m : Machine) (s : SpaceId) (x : PageTable) :
    KeepsPages m (m.setTable s x) :=
  ⟨funext fun _ => page?_setTable .., unasked_of_eq rfl⟩

theorem keepsPages_withFile {k : FileId} {d : File} (h : (m.files.get k).Unasked d) :
    KeepsPages m (m.withFile k d) := ⟨rfl, unasked_withFile h⟩

theorem keepsPages_emit (m : Machine) (e : Event) :
    KeepsPages m (m.emit e) := keepsPages_of_eq rfl rfl

theorem keepsPages_onFrames (m : Machine) (g : FrameTable → FrameTable) :
    KeepsPages m (m.onFrames g) :=
  keepsPages_of_eq rfl rfl

theorem keepsPages_unmapPage (m : Machine) (id : PageId) : KeepsPages m (m.unmapPage id) :=
  keepsPages_setTable ..

theorem note_keepsPages (e : Event) : Leads KeepsPages (note e) :=
  leads_modify fun m => keepsPages_emit m e

theorem onFrames_keepsPages (g : FrameTable → FrameTable) :
    Leads KeepsPages (modify (onFrames g) : Step Machine PUnit) :=
  leads_modify fun m => keepsPages_onFrames m g

theorem frame_keepsPages (f : FrameId) : Leads KeepsPages (frame f) :=
  leads_get.bind fun _ => leads_ofOption _ _

theorem readFrame_keepsPages (p : PhysPage) : Leads KeepsPages (readFrame p) :=
  leads_get.bind fun _ => leads_ofExcept _

theorem writeFrame_keepsPages (p : PhysPage) (b : PageBytes) : Leads KeepsPages (writeFrame p b) :=
  leads_get.bind fun _ => (leads_ofExcept _).bind fun _ =>
    leads_modify fun _ => keepsPages_of_eq rfl rfl

theorem demandIdle_keepsPages (id : PageId) : Leads KeepsPages (demandIdle id) :=
  leads_get.bind fun _ => leads_demand _ _

theorem onSwap_keepsPages {α : Type} (x : Step Swap α) : Leads KeepsPages (onSwap x) :=
  .zoom (fun m w => keepsPages_of_eq (m := m) (t := m.withSwap w) rfl rfl) x

theorem allocSlot_keepsPages : Leads KeepsPages allocSlot :=
  (onSwap_keepsPages _).handle fun e => (note_keepsPages _).bind fun _ => leads_fail e

theorem install_keepsPages (id : PageId) (p : PhysPage) (w : Bool) :
    Leads KeepsPages (install id p w) := by
  have hset {m : Machine} {x : Space} (h : x.pages = (m.space id.space).pages) :
      KeepsPages m (m.setSpace id.space x) := by
    refine ⟨funext fun o => ?_, unasked_of_eq rfl⟩
    rw [page?_setSpace]
    split
    next heq => rw [h, page?_eq, heq]
    next => rfl
  intro m
  unfold Ends install
  simp only
  rcases (m.space id.space).refusals.ask with ⟨_ | _, r⟩
  · exact hset rfl
  · exact hset rfl

theorem inFrame_keepsPages {x : Step (Machine × PageBytes) Unit}
    (h : Leads (fun a b => KeepsPages a.1 b.1) x) (p : PhysPage) :
    Leads KeepsPages (inFrame p x) := by
  refine (readFrame_keepsPages p).bind fun b m => ?_
  have hx := h (m, b)
  cases hr : x (m, b) with
  | ok u s =>
      have hm : KeepsPages m s.1 := hx.of_ok hr
      simpa only [Ends, hr] using
        (writeFrame_keepsPages p s.2 s.1).mono (fun _ _ => trans_of KeepsPages hm)
          fun _ _ => trans_of KeepsPages hm
  | error e s =>
      have hm : KeepsPages m s.1 := hx.of_error hr
      have hthrow : Ends (do writeFrame p s.2; throw e : Step Machine Unit) s.1
          (fun _ t => KeepsPages m t) (fun _ t => KeepsPages m t) :=
        (((writeFrame_keepsPages p s.2).bind fun _ => leads_throw e) s.1).mono
          (fun _ _ => trans_of KeepsPages hm) fun _ _ => trans_of KeepsPages hm
      simpa only [Ends, hr] using hthrow

theorem loadSegment_keepsPages (g : Segment) :
    Leads (fun a b => KeepsPages a.1 b.1) (loadSegment g) := by
  rintro ⟨m, b⟩
  have hload := g.load_unasked (m.files.get g.file) b
  unfold Ends loadSegment
  simp only
  cases hx : g.load (m.files.get g.file, b) with
  | ok u q => exact keepsPages_withFile (hload.of_ok hx)
  | error e q =>
      have hm : KeepsPages m (m.withFile g.file q.1) := keepsPages_withFile (hload.of_error hx)
      cases e with
      | errno => exact hm
      | short n =>
          have hemit : KeepsPages m ((m.withFile g.file q.1).emit (.shortRead g n)) :=
            trans_of KeepsPages hm (keepsPages_emit _ _)
          exact hemit

theorem runProducer_keepsPages (q : Producer) :
    Leads (fun a b => KeepsPages a.1 b.1) (runProducer q) := by
  rintro ⟨m, b⟩
  unfold Ends runProducer
  simp only
  rcases q.run (m.runs.get q.key) b with ⟨b', _ | e⟩ <;> exact keepsPages_of_eq rfl rfl

theorem onSwapPage_keepsPages (x : Step (Swap × PageBytes) Unit) :
    Leads (fun a b => KeepsPages a.1 b.1) (onSwapPage x) :=
  .zoom (fun q w => keepsPages_of_eq (m := q.1) (t := q.1.withSwap w.1) rfl rfl) x

theorem loadInto_keepsPages (p : PhysPage) (l : Option Loader) :
    Leads KeepsPages (loadInto p l) := by
  cases l with
  | none => exact leads_pure ()
  | some l =>
      cases l with
      | segment g => exact inFrame_keepsPages (loadSegment_keepsPages g) p
      | producer q => exact inFrame_keepsPages (runProducer_keepsPages q) p

theorem fetch_keepsPages (id : PageId) (c : Content) (p : PhysPage) :
    Leads KeepsPages (fetch id c p) := by
  have hseg (g : Segment) := inFrame_keepsPages (loadSegment_keepsPages g) p
  cases c with
  | unloaded kind loader span =>
      cases kind with
      | anon =>
          exact (writeFrame_keepsPages p _).bind fun _ =>
            (loadInto_keepsPages p loader).bind fun _ =>
              (note_keepsPages _).bind fun _ => leads_pure _
      | file =>
          rw [fetch]
          cases loader.bind Loader.backing? with
          | none => exact leads_fail _
          | some g =>
              exact (writeFrame_keepsPages p _).bind fun _ => (hseg g).bind fun _ =>
                (note_keepsPages _).bind fun _ => leads_pure _
  | anon slot =>
      cases slot with
      | none => exact (writeFrame_keepsPages p _).bind fun _ => leads_pure _
      | some s =>
          exact (inFrame_keepsPages (onSwapPage_keepsPages _) p).bind fun _ =>
            (note_keepsPages _).bind fun _ => leads_pure _
  | file g span dirty => exact (hseg g).bind fun _ => leads_pure _

theorem copyContent_keepsPages (id : PageId) (p : PhysPage) :
    Leads KeepsPages (copyContent id p) := by
  refine leads_get.bind fun m => ?_
  cases m.page? id with
  | none => exact leads_pure ()
  | some page =>
      dsimp only
      split
      · exact (frame_keepsPages _).bind fun _ => (readFrame_keepsPages _).bind fun _ =>
          writeFrame_keepsPages _ _
      · exact inFrame_keepsPages (onSwapPage_keepsPages _) p
      · exact writeFrame_keepsPages p _
      · exact leads_pure ()

end Machine

end Pager
