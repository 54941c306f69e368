import Pager.FaultFlags
import Pager.Logger
import Pager.Page

namespace Pager

/-- What the system reports about its work. -/
inductive Event
  | swapReady (slots : Nat)
  | swapExhausted
  | swapRead (slot : Slot)
  | frameAdded (frame : FrameId) (page : PhysPage)
  | noVictim (frames : Nat)
  | evicting (page : VirtPage) (frame : FrameId)
  | evictionFailed (page : VirtPage) (e : Errno)
  | swappedOut (page : VirtPage) (slot : Slot)
  | writingBack (page : VirtPage) (offset : Nat)
  | writeBackLost (page : VirtPage) (e : Errno)
  | shortRead (segment : Segment) (read : Nat)
  | loaded (page : VirtPage) (type : PageType)
  | claimed (page : VirtPage) (phys : PhysPage)
  | copied (pages : Nat)
  | destroyed (pages : Nat)
  | killed (e : Errno)
  | fault (addr : VirtAddr) (flags : FaultFlags)
  | invalidAddress (addr : VirtAddr)
  | readOnly (addr : VirtAddr)
  | unmappedAddress (addr : VirtAddr)
  | stackGrown (addr : VirtAddr)
  | consoleMapped (descriptor : Nat)
  | overlap (addr : VirtAddr)
  | mapped (pages : Nat) (addr : VirtAddr) (offset : Nat)
  | unmapped (pages : Nat) (addr : VirtAddr)

namespace Event

def level : Event → Level
  | noVictim _ => .error
  | swapExhausted | evictionFailed _ _ | writeBackLost _ _ | shortRead _ _ | invalidAddress _
  | readOnly _ | unmappedAddress _ | consoleMapped _ | overlap _ => .warn
  | swapReady _ | killed _ => .info
  | evicting _ _ | copied _ | destroyed _ | stackGrown _ | mapped _ _ _ | unmapped _ _ => .debug
  | swapRead _ | frameAdded _ _ | swappedOut _ _ | writingBack _ _ | loaded _ _ | claimed _ _
  | fault _ _ => .trace

def message : Event → String
  | swapReady n => s!"swap area initialized with {n} slots"
  | swapExhausted => "swap area exhausted"
  | swapRead s => s!"swap in from {s.describe}"
  | frameAdded f p => s!"new {f.describe} at {p.describe}"
  | noVictim n => s!"no frame can be evicted among {n} frames"
  | evicting v f => s!"evict {v.describe} from {f.describe}"
  | evictionFailed v e => s!"failed to evict {v.describe}: {e.message}"
  | swappedOut v s => s!"{v.describe} swapped out to {s.describe}"
  | writingBack v n => s!"write back {v.describe} at offset {hex n}"
  | writeBackLost v e => s!"lost write back of {v.describe}: {e.message}"
  | shortRead g n => s!"short read of {g.describe}: {n} bytes"
  | loaded v t => s!"transmute {v.describe} into {t.name}"
  | claimed v p => s!"claimed {v.describe} at {p.describe}"
  | copied n => s!"copied {n} pages"
  | destroyed n => s!"destroyed {n} pages"
  | killed e => s!"process killed: {e.message}"
  | fault a f => s!"page fault at {a.describe}, {f.describe}"
  | invalidAddress a => s!"fault on invalid address {a.describe}"
  | readOnly a => s!"write to read-only page at {a.describe}"
  | unmappedAddress a => s!"segmentation fault at {a.describe}"
  | stackGrown a => s!"grow stack to {a.describe}"
  | consoleMapped n => s!"mmap on console fd {n}"
  | overlap a => s!"mmap at {a.describe} overlaps existing pages"
  | mapped n a o => s!"mmap {n} pages at {a.describe}, offset {hex o}"
  | unmapped n a => s!"munmap {n} pages at {a.describe}"

end Event

end Pager
