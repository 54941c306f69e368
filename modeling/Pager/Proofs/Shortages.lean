import Pager.Machine.Claim
import Pager.Proofs.Ends

namespace Pager

namespace Step

variable {σ τ α β : Type} {P : Errno → Prop} {x : Step σ α}

/-- Wherever the operation is started, the errors that it ends with are like this. -/
def Raises (P : Errno → Prop) (x : Step σ α) : Prop :=
  ∀ s, Ends x s (fun _ _ => True) (fun f _ => ∀ e, f = .errno e → P e)

theorem raises_pure (a : α) : Raises P (pure a : Step σ α) := fun _ => trivial

theorem raises_get : Raises P (get : Step σ σ) := fun _ => trivial

theorem raises_modify (f : σ → σ) : Raises P (modify f : Step σ PUnit) := fun _ => trivial

theorem raises_modifyGet (f : σ → α × σ) : Raises P (modifyGet f : Step σ α) := fun _ => trivial

theorem raises_set (t : σ) : Raises P (set t : Step σ PUnit) := fun _ => trivial

theorem raises_halt (q : Panic) : Raises P (halt q : Step σ α) := fun _ _ h => nomatch h

theorem raises_fail {e : Errno} (h : P e) : Raises P (fail e : Step σ α) := by
  rintro s _ ⟨⟩
  exact h

theorem raises_require (c : Bool) {e : Errno} (h : P e) :
    Raises P (require c e : Step σ Unit) := by
  cases c
  · exact raises_fail h
  · exact raises_pure ()

theorem raises_demand (c : Bool) (q : Panic) : Raises P (demand c q : Step σ Unit) := by
  cases c
  · exact raises_halt q
  · exact raises_pure ()

theorem raises_ofOption (q : Panic) (o : Option α) : Raises P (ofOption q o : Step σ α) := by
  cases o
  · exact raises_halt q
  · exact raises_pure _

theorem raises_ofExcept (r : Except Panic α) : Raises P (ofExcept r : Step σ α) := by
  cases r
  · exact raises_halt _
  · exact raises_pure _

theorem Raises.bind {f : α → Step σ β} (h : Raises P x) (hf : ∀ a, Raises P (f a)) :
    Raises P (x >>= f) := fun s =>
  (ends_bind x f).mpr ((h s).mono (fun a t _ => hf a t) fun _ _ h => h)

theorem Raises.handle {h : Errno → Step σ α} (hx : Raises P x) (hh : ∀ e, P e → Raises P (h e)) :
    Raises P (handle x h) := by
  intro s
  rw [ends_handle]
  refine (hx s).mono (fun _ _ h => h) ?_
  rintro (e | q) t hf
  · exact hh e (hf e rfl) t
  · rintro _ ⟨⟩

theorem Raises.onFailure {y : Step σ Unit} (hx : Raises P x) (hy : Raises P y) :
    Raises P (onFailure x y) := by
  intro s
  rw [ends_onFailure]
  exact (hx s).mono (fun _ _ h => h) fun f t hf => (hy t).mono (fun _ _ _ => hf) fun _ _ h => h

theorem Raises.zoom {get : τ → σ} {set : σ → τ → τ} (hx : Raises P x) :
    Raises P (zoom get set id x : Step τ α) := by
  intro s
  rw [ends_zoom]
  exact (hx (get s)).mono (fun _ _ h => h) fun _ _ h => h

end Step

open Step

/-- There is no memory to be had, or a device does not do its work. -/
def Errno.Shortage (e : Errno) : Prop := e = .eio ∨ e = .enospc ∨ e = .enomem

namespace Errno

theorem shortage_eio : eio.Shortage := .inl rfl

theorem shortage_enospc : enospc.Shortage := .inr (.inl rfl)

theorem shortage_enomem : enomem.Shortage := .inr (.inr rfl)

end Errno

namespace Swap

theorem alloc_raises : Raises Errno.Shortage Swap.alloc := by
  intro s
  unfold Ends Swap.alloc
  cases s.bitmap.take? with
  | none =>
      rintro _ ⟨⟩
      exact Errno.shortage_enomem
  | some => trivial

theorem free_raises (slot : Slot) : Raises Errno.Shortage (Swap.free slot) :=
  raises_get.bind fun _ => (raises_demand _ _).bind fun _ => (raises_demand _ _).bind fun _ =>
    raises_set _

theorem onDisk_raises {α : Type} {x : EStateM Errno Disk α}
    (h : ∀ d, Ends x d (fun _ _ => True) (fun e _ => e = .eio)) :
    Raises Errno.Shortage (onDisk x) := by
  intro s
  unfold Ends onDisk
  cases s.disk with
  | none =>
      rintro _ ⟨⟩
      exact Errno.shortage_enospc
  | some d =>
      refine (ends_zoom _ _ _ x).mpr ((h d).mono (fun _ _ _ => trivial) ?_)
      rintro _ _ rfl _ ⟨⟩
      exact Errno.shortage_eio

theorem writeSectors_raises (slot : Slot) (page : PageBytes) (is : List Nat) :
    Raises Errno.Shortage (writeSectors slot page is) := by
  induction is with
  | nil => exact raises_pure ()
  | cons i is ih =>
      refine (raises_ofExcept _).bind fun n => (onDisk_raises fun d => ?_).bind fun _ => ih
      unfold Ends Disk.write
      rcases d.writeTrap.ask with ⟨_ | _, t⟩
      · by_cases hn : n < d.count <;> simp [hn]
      · rfl

theorem write_raises (slot : Slot) (page : PageBytes) :
    Raises Errno.Shortage (Swap.write slot page) :=
  raises_get.bind fun _ => (raises_require _ Errno.shortage_enospc).bind fun _ =>
    writeSectors_raises slot page _

theorem readSectors_raises (slot : Slot) (is : List Nat) :
    Raises Errno.Shortage (readSectors slot is) := by
  induction is with
  | nil => exact raises_pure ()
  | cons i is ih =>
      refine (raises_ofExcept _).bind fun n => (Raises.zoom (onDisk_raises fun d => ?_)).bind
        fun _ => (raises_modify _).bind fun _ => ih
      unfold Ends Disk.read
      rcases d.readTrap.ask with ⟨_ | _, t⟩
      · by_cases hn : n < d.count <;> simp [hn]
      · rfl

theorem takeBack_raises (slot : Slot) : Raises Errno.Shortage (takeBack slot) := by
  refine Raises.bind ?_ fun _ => (free_raises slot).zoom
  exact raises_get.bind fun _ => (raises_require _ Errno.shortage_enospc).bind fun _ =>
    (raises_demand _ _).bind fun _ => readSectors_raises slot _

end Swap

namespace Machine

variable {P : Errno → Prop} {id : PageId} {page : Page} {f : FrameId} {p : PhysPage}
  {b : PageBytes} {g : Segment}

theorem note_raises (e : Event) : Raises P (note e) := raises_modify _

theorem frame_raises (f : FrameId) : Raises P (frame f) :=
  raises_get.bind fun _ => raises_ofOption _ _

theorem readFrame_raises (p : PhysPage) : Raises P (readFrame p) :=
  raises_get.bind fun _ => raises_ofExcept _

theorem writeFrame_raises (p : PhysPage) (b : PageBytes) : Raises P (writeFrame p b) :=
  raises_get.bind fun _ => (raises_ofExcept _).bind fun _ => raises_modify _

theorem inFrame_raises {x : Step (Machine × PageBytes) Unit} (h : Raises P x) (p : PhysPage) :
    Raises P (inFrame p x) := by
  refine (readFrame_raises p).bind fun b m => ?_
  have hx := h (m, b)
  cases hr : x (m, b) with
  | ok u s =>
      simpa only [Ends, hr] using writeFrame_raises p s.2 s.1
  | error e s =>
      have he := hx.of_error hr
      have hthrow : Ends (do writeFrame p s.2; throw e : Step Machine Unit) s.1 (fun _ _ => True)
          (fun f _ => ∀ e, f = .errno e → P e) :=
        (ends_bind _ _).mpr ((writeFrame_raises p s.2 s.1).mono (fun _ _ _ => he) fun _ _ h => h)
      simpa only [Ends, hr] using hthrow

theorem install_raises (id : PageId) (p : PhysPage) (w : Bool) :
    Raises Errno.Shortage (install id p w) := by
  intro m
  unfold Ends install
  simp only
  rcases (m.space id.space).refusals.ask with ⟨_ | _, t⟩
  · trivial
  · rintro _ ⟨⟩
    exact Errno.shortage_enomem

theorem onFile_raises {α : Type} {x : EStateM Errno File α}
    (h : ∀ d, Ends x d (fun _ _ => True) (fun e _ => e = .eio)) (k : FileId) :
    Raises Errno.Shortage (onFile k x) := by
  intro m
  refine (ends_zoom _ _ _ x).mpr ((h _).mono (fun _ _ _ => trivial) ?_)
  rintro _ _ rfl _ ⟨⟩
  exact Errno.shortage_eio

theorem freeSlot_raises (s : Slot) : Raises Errno.Shortage (freeSlot s) :=
  (Swap.free_raises s).zoom

theorem allocSlot_raises : Raises Errno.Shortage allocSlot :=
  Swap.alloc_raises.zoom.handle fun _ he => (note_raises _).bind fun _ => raises_fail he

theorem writeSlot_raises (s : Slot) (b : PageBytes) : Raises Errno.Shortage (writeSlot s b) :=
  (Swap.write_raises s b).zoom

theorem fileWriteBack_eio (g : Segment) (b : PageBytes) (d : File) :
    Ends (g.writeBack b) d (fun _ _ => True) (fun e _ => e = .eio) := by
  rw [Segment.writeBack]
  split
  · trivial
  · rw [ends_bind]
    have hstore (bs : List UInt8) (d : File) :
        Ends (File.store g.offset bs) d (fun _ _ => True) (fun e _ => e = .eio) := by
      unfold Ends File.store
      cases d.failingWrites <;> trivial
    have hwrite : Ends (File.writeAt g.offset (Bytes.slice b 0 g.length)) d (fun _ _ => True)
        (fun e _ => e = .eio) := by
      unfold Ends File.writeAt
      rcases d.shortWriteTrap.ask with ⟨_ | _, t⟩ <;> exact hstore _ _
    refine hwrite.mono (fun n d _ => ?_) fun _ _ h => h
    split
    · trivial
    · rfl

theorem writeBack_raises (id : PageId) (g : Segment) (dirty : Bool) (b : PageBytes) :
    Raises Errno.Shortage (writeBack id g dirty b) := by
  refine raises_get.bind fun m => (raises_modify _).bind fun _ => ?_
  split
  · exact (note_raises _).bind fun _ => onFile_raises (fileWriteBack_eio g b) _
  · exact raises_pure ()

theorem saveAnon_raises (id : PageId) (page : Page) (held : Option Slot) (b : PageBytes) :
    Raises Errno.Shortage (saveAnon id page held b) :=
  (raises_demand _ _).bind fun _ => allocSlot_raises.bind fun s => (raises_modify _).bind fun _ =>
    ((writeSlot_raises s b).handle fun _ he =>
      (freeSlot_raises s).bind fun _ => raises_fail he).bind fun _ =>
        (note_raises _).bind fun _ => raises_modify _

theorem saveFile_raises (id : PageId) (page : Page) (g : Segment) (span : Nat) (dirty : Bool)
    (b : PageBytes) : Raises Errno.Shortage (saveFile id page g span dirty b) :=
  ((writeBack_raises id g dirty b).handle fun _ he =>
    (raises_modify _).bind fun _ => raises_fail he).bind fun _ => raises_modify _

theorem swapOut_raises (id : PageId) (f : FrameId) (b : PageBytes) :
    Raises Errno.Shortage (swapOut id f b) := by
  refine raises_get.bind fun m => ?_
  split
  · exact raises_pure ()
  · split
    · split
      · exact raises_halt _
      · exact saveAnon_raises _ _ _ _
      · exact saveFile_raises _ _ _ _ _ _
    · exact raises_pure ()

theorem vacate_raises (f : FrameId) (p : PhysPage) (o : Option PageId) :
    Raises Errno.Shortage (vacate f p o) := by
  cases o with
  | none => exact raises_pure ()
  | some id =>
      exact (note_raises _).bind fun _ => (readFrame_raises p).bind fun b =>
        (swapOut_raises id f b).handle fun _ he =>
          (note_raises _).bind fun _ => (raises_modify _).bind fun _ => raises_fail he

theorem acquireFrame_raises : Raises Errno.Shortage acquireFrame := by
  have hpick : Raises Errno.Shortage pickVictim := by
    refine (raises_modifyGet _).bind fun o => ?_
    cases o with
    | none => exact raises_get.bind fun _ => (note_raises _).bind fun _ => raises_halt _
    | some f => exact raises_pure f
  have hevict : Raises Errno.Shortage evict :=
    hpick.bind fun f => (frame_raises f).bind fun _ => raises_get.bind fun _ =>
      (raises_modify _).bind fun _ => (vacate_raises _ _ _).bind fun _ => raises_pure _
  have hadd (p : PhysPage) : Raises Errno.Shortage (addFrame p) :=
    (raises_modifyGet _).bind fun _ => (note_raises _).bind fun _ => raises_pure _
  refine Raises.bind (raises_get.bind fun m => ?_) fun _ =>
    (writeFrame_raises _ _).bind fun _ => raises_pure _
  cases m.ram.alloc? with
  | none => exact hevict
  | some r => exact (raises_modify _).bind fun _ => hadd _

theorem loadSegment_raises (g : Segment) : Raises Errno.Shortage (loadSegment g) := by
  rintro ⟨m, b⟩
  have hload : Ends (g.load) (m.files.get g.file, b) (fun _ _ => True)
      (fun e _ => e.toErrno = .eio) := by
    rw [Segment.load, ends_bind, ends_zoom]
    have hread : Ends (File.readAt g.offset g.length) (m.files.get g.file) (fun _ _ => True)
        (fun e _ => e = .eio) := by
      unfold Ends File.readAt
      rcases (m.files.get g.file).readTrap.ask with ⟨_ | _, t⟩
      · rcases (m.files.get g.file).shortReadTrap.ask with ⟨_ | _, u⟩ <;> trivial
      · rfl
    refine hread.mono (fun bs d _ => ?_) ?_
    · rw [ends_bind, ends_modify]
      split
      · trivial
      · rfl
    · rintro _ _ rfl
      rfl
  unfold Ends loadSegment
  simp only
  rcases hl : g.load (m.files.get g.file, b) with ⟨u, d, b'⟩ | ⟨e, d, b'⟩
  · trivial
  · have he := hload.of_error hl
    cases e with
    | errno k =>
        obtain rfl : k = .eio := he
        rintro _ ⟨⟩
        exact Errno.shortage_eio
    | short n =>
        rintro _ ⟨⟩
        exact Errno.shortage_eio

theorem fetch_raises (hl : page.loaded = true) :
    Raises Errno.Shortage (fetch id page.content p) := by
  cases hc : page.content with
  | unloaded => simp [Page.loaded, hc] at hl
  | anon slot =>
      cases slot with
      | none => exact (writeFrame_raises _ _).bind fun _ => raises_pure _
      | some s =>
          exact (inFrame_raises (Swap.takeBack_raises s).zoom p).bind fun _ =>
            (note_raises _).bind fun _ => raises_pure _
  | file g span r =>
      exact (inFrame_raises (loadSegment_raises g) p).bind fun _ => raises_pure _

/-- A page that was loaded once lacks nothing but memory and devices that work
to be accessible again. -/
theorem claimPage_raises (hl : page.loaded = true) :
    Raises Errno.Shortage (claimPage id page) := by
  rw [claimPage]
  split
  · exact (frame_raises _).bind fun _ => install_raises _ _ _
  · refine Raises.bind ?_ fun _ => raises_modify _
    refine acquireFrame_raises.bind fun r => Raises.bind ?_ fun _ => Raises.bind ?_ fun _ =>
      (note_raises _).bind fun _ => raises_pure _
    · exact (raises_get.bind fun _ => raises_demand _ _).onFailure (raises_modify _)
    · exact ((install_raises _ _ _).bind fun _ => (fetch_raises hl).bind fun _ =>
        raises_modify _).onFailure (raises_modify _)

end Machine

end Pager
