import Pager.Machine.Lemmas
import Pager.Proofs.FrameOwners
import Pager.Proofs.RamBytes
import Pager.Proofs.SlotBytes
import Pager.Proofs.Slots

namespace Pager

/-- Where everything is at present: the pages and their mappings, the frames,
and the bytes of memory, of the swap area and of the files. What only decides
which requests to a device fail is left out. -/
structure Layout where
  config : Config
  page : PageId → Option Page
  entry : PageId → Option Entry
  frames : FrameTable
  free : List PhysPage
  capacity : Nat
  bytes : PhysPage → PageBytes
  bitmap : Swap.Bitmap
  stored : Slot → PageBytes
  data : FileId → Array UInt8
  runs : Nat → Nat
  lost : Nat

namespace Layout

def home? (l : Layout) (id : PageId) : Option FrameId := (l.page id).bind Page.frame?

def slot? (l : Layout) (id : PageId) : Option Slot := (l.page id).bind Page.slot?

def owner? (l : Layout) (f : FrameId) : Option PageId := l.frames.owner? f

def phys? (l : Layout) (f : FrameId) : Option PhysPage := l.frames.phys? f

def PinnedOnly (l : Layout) (f : FrameId) : Prop := ∀ g, l.frames.Pinned g → g = f

def Unpinned (l : Layout) : Prop := ∀ f, ¬l.frames.Pinned f

def Spare (l : Layout) (f : FrameId) (p : PhysPage) : Prop :=
  l.phys? f = some p ∧ l.owner? f = none

end Layout

def Event.isLoss : Event → Bool
  | writeBackLost _ _ => true
  | _ => false

namespace Machine

variable (m : Machine) (id : PageId)

def losses : Nat := (m.log.toList.filter Event.isLoss).length

def layout : Layout where
  config := m.config
  page := m.page?
  entry := m.mapping?
  frames := m.frames
  free := m.ram.free
  capacity := m.ram.capacity
  bytes := m.ram.bytes
  bitmap := m.swap.bitmap
  stored := m.swap.stored
  data := fun f => (m.files.get f).data
  runs := m.runs.get
  lost := m.losses

theorem layout_emit {e : Event} (h : e.isLoss = false) : (m.emit e).layout = m.layout := by
  have hl : (m.emit e).losses = m.losses := by
    simp only [losses, emit, Array.toList_push, List.filter_append, List.filter_cons, h,
      List.filter_nil, Bool.false_eq_true, if_false, List.append_nil]
  rw [layout, hl]
  rfl

theorem layout_emit_loss {e : Event} (h : e.isLoss = true) :
    (m.emit e).layout = { m.layout with lost := m.layout.lost + 1 } := by
  have hl : (m.emit e).losses = m.losses + 1 := by
    simp only [losses, emit, Array.toList_push, List.filter_append, List.filter_cons, h,
      List.filter_nil, if_true, List.length_append, List.length_singleton]
  rw [layout, hl]
  rfl

@[simp]
theorem layout_onFrames (g : FrameTable → FrameTable) :
    (m.onFrames g).layout = { m.layout with frames := g m.layout.frames } := rfl

theorem layout_setSpace (s : SpaceId) (x : Space) :
    (m.setSpace s x).layout = { m.layout with
      page := fun id => if s = id.space then x.pages.get? id.page else m.page? id
      entry := fun id => if s = id.space then x.table.get? id.page else m.mapping? id } := by
  have hp : (m.setSpace s x).page? =
      fun id => if s = id.space then x.pages.get? id.page else m.page? id :=
    funext fun id => page?_setSpace m s id x
  have he : (m.setSpace s x).mapping? =
      fun id => if s = id.space then x.table.get? id.page else m.mapping? id :=
    funext fun id => mapping?_setSpace m s id x
  rw [layout, hp, he]
  rfl

theorem layout_setSpace_same {s : SpaceId} {x : Space} (hp : x.pages = (m.space s).pages)
    (ht : x.table = (m.space s).table) : (m.setSpace s x).layout = m.layout := by
  have hpage : (fun id : PageId => if s = id.space then x.pages.get? id.page else m.page? id) =
      m.page? := by
    funext id
    split
    next h => rw [hp, page?_eq, h]
    next => rfl
  have hentry : (fun id : PageId => if s = id.space then x.table.get? id.page else m.mapping? id) =
      m.mapping? := by
    funext id
    split
    next h => rw [ht, mapping?_eq, h]
    next => rfl
  rw [layout_setSpace, hpage, hentry]
  rfl

@[simp]
theorem layout_setPage (p : Page) :
    (m.setPage id p).layout =
      { m.layout with page := Function.update m.layout.page id (some p) } := by
  have hp : (m.setPage id p).page? = Function.update m.page? id (some p) := by
    funext o
    rw [page?_setPage, Function.update_apply]
    simp only [eq_comm]
  have he : (m.setPage id p).mapping? = m.mapping? := funext fun o => mapping?_setPage m id o p
  rw [layout, hp, he]
  rfl

@[simp]
theorem layout_erasePage :
    (m.erasePage id).layout = { m.layout with page := Function.update m.layout.page id none } := by
  have hp : (m.erasePage id).page? = Function.update m.page? id none := by
    funext o
    rw [page?_erasePage, Function.update_apply]
    simp only [eq_comm]
  have he : (m.erasePage id).mapping? = m.mapping? := funext fun o => mapping?_erasePage m id o
  rw [layout, hp, he]
  rfl

@[simp]
theorem layout_unmapPage :
    (m.unmapPage id).layout =
      { m.layout with entry := Function.update m.layout.entry id none } := by
  have hp : (m.unmapPage id).page? = m.page? := funext fun o => page?_setTable m _ o _
  have he : (m.unmapPage id).mapping? = Function.update m.mapping? id none := by
    funext o
    rw [mapping?_unmapPage, Function.update_apply]
    simp only [eq_comm]
  rw [layout, hp, he]
  rfl

@[simp]
theorem layout_setFlag (f : Flag) (on : Bool) :
    (m.setFlag id f on).layout = { m.layout with
      entry := Function.update m.layout.entry id
        ((m.layout.entry id).map (fun e => e.set f on)) } := by
  have hp : (m.setFlag id f on).page? = m.page? := funext fun o => page?_setTable m _ o _
  have he : (m.setFlag id f on).mapping? =
      Function.update m.mapping? id ((m.mapping? id).map (fun e => e.set f on)) := by
    funext o
    rw [mapping?_setFlag, Function.update_apply]
    simp only [eq_comm]
  rw [layout, hp, he]
  rfl

theorem hasFlag_layout (f : Flag) :
    m.hasFlag id f = (m.layout.entry id).any (fun e => e.has f) := rfl

theorem layout_withRam (r : Ram) :
    (m.withRam r).layout =
      { m.layout with free := r.free, capacity := r.capacity, bytes := r.bytes } := rfl

theorem layout_store {p : PhysPage} (h : Ram.InRange m.ram.capacity p) (b : PageBytes) :
    (m.withRam (m.ram.store p b)).layout =
      { m.layout with bytes := Function.update m.layout.bytes p b } := by
  rw [layout_withRam, Ram.free_store, Ram.capacity_store, Ram.bytes_store h]
  rfl

def withSwap (m : Machine) (w : Swap) : Machine := { m with swap := w }

theorem layout_withSwap (w : Swap) :
    (m.withSwap w).layout = { m.layout with bitmap := w.bitmap, stored := w.stored } := rfl

theorem layout_withSwap_of_eq {w : Swap} {bitmap : Swap.Bitmap} {stored : Slot → PageBytes}
    (hb : w.bitmap = bitmap) (hs : w.stored = stored) :
    (m.withSwap w).layout = { m.layout with bitmap := bitmap, stored := stored } := by
  rw [layout_withSwap, hb, hs]

def withFile (m : Machine) (f : FileId) (d : File) : Machine :=
  { m with files := m.files.set f d }

theorem layout_withFile (f : FileId) (d : File) :
    (m.withFile f d).layout =
      { m.layout with data := Function.update m.layout.data f d.data } := by
  have hd : (fun k => ((m.files.set f d).get k).data) =
      Function.update (fun k => (m.files.get k).data) f d.data := by
    funext k
    rw [Store.get_set, Function.update_apply]
    by_cases h : f = k
    · rw [if_pos h, if_pos h.symm]
    · rw [if_neg h, if_neg (Ne.symm h)]
  rw [layout, withFile]
  simp only [hd]
  rfl

theorem layout_withFile_same {f : FileId} {d : File} (h : d.data = (m.files.get f).data) :
    (m.withFile f d).layout = m.layout := by
  rw [layout_withFile, h]
  have : Function.update m.layout.data f (m.files.get f).data = m.layout.data :=
    Function.update_eq_self f m.layout.data
  rw [this]

def withRuns (m : Machine) (r : Store Nat) : Machine := { m with runs := r }

theorem layout_withRuns (r : Store Nat) :
    (m.withRuns r).layout = { m.layout with runs := r.get } := rfl

end Machine

end Pager
