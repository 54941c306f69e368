import Pager.Space

namespace Pager

/-- A physical page in use. A pinned frame is being filled or emptied and is not
taken from its owner. -/
structure Frame where
  page : PhysPage
  owner : Option PageId := none
  pinned : Bool := false
deriving DecidableEq, Inhabited

/-- Frames are never given back while the system runs; `hand` is where the
search for the next victim begins. -/
structure FrameTable where
  frames : Array Frame := #[]
  hand : Nat := 0
deriving Inhabited

namespace FrameTable

def size (t : FrameTable) : Nat := t.frames.size

def get? (t : FrameTable) (f : FrameId) : Option Frame := t.frames[f.index]?

def modify (t : FrameTable) (f : FrameId) (g : Frame → Frame) : FrameTable :=
  { t with frames := t.frames.modify f.index g }

def push (t : FrameTable) (fr : Frame) : FrameId × FrameTable :=
  (⟨t.size⟩, { t with frames := t.frames.push fr })

def advance (t : FrameTable) : FrameTable := { t with hand := (t.hand + 1) % t.size }

def bind (t : FrameTable) (f : FrameId) (id : PageId) : FrameTable :=
  t.modify f (fun fr => { fr with owner := some id })

def unbind (t : FrameTable) (f : FrameId) : FrameTable :=
  t.modify f (fun fr => { fr with owner := none })

def pin (t : FrameTable) (f : FrameId) : FrameTable :=
  t.modify f (fun fr => { fr with pinned := true })

def unpin (t : FrameTable) (f : FrameId) : FrameTable :=
  t.modify f (fun fr => { fr with pinned := false })

theorem get?_modify (t : FrameTable) (f h : FrameId) (g : Frame → Frame) :
    (t.modify f g).get? h = if f = h then (t.get? h).map g else t.get? h := by
  obtain ⟨i⟩ := f
  obtain ⟨j⟩ := h
  simp only [modify, get?, Array.getElem?_modify, FrameId.mk.injEq]

theorem size_modify (t : FrameTable) (f : FrameId) (g : Frame → Frame) :
    (t.modify f g).size = t.size := by
  simp [modify, size]

end FrameTable

end Pager
