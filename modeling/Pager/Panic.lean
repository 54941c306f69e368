import Pager.Address
import Pager.Errno

namespace Pager

structure Slot where
  index : Nat
deriving DecidableEq, Inhabited

def Slot.describe (s : Slot) : String := s!"SwapSlot({s.index})"

inductive Panic
  | addOverflow
  | subOverflow
  | mulOverflow
  | outOfBounds (len index : Nat)
  | outOfFrames
  | slotFreedTwice (slot : Slot)
  | slotUnused
  | pageFreedTwice (page : PhysPage)
  | pageInsertedTwice (page : VirtPage)
  | pageClaimedTwice (page : VirtPage)
  | unloadedResident (page : VirtPage)
  | slotHeld
  | headsNoMapping (page : VirtPage)
  | segmentTooLong
  | accessStuck
deriving DecidableEq, Inhabited

def Panic.message : Panic → String
  | addOverflow => "attempt to add with overflow"
  | subOverflow => "attempt to subtract with overflow"
  | mulOverflow => "attempt to multiply with overflow"
  | outOfBounds len index => s!"index out of bounds: the len is {len} but the index is {index}"
  | outOfFrames => "out of user frames"
  | slotFreedTwice slot => s!"{slot.describe} is freed twice"
  | slotUnused => "assertion failed: self.is_used(slot)"
  | pageFreedTwice page => s!"{page.describe} is freed twice"
  | pageInsertedTwice page => s!"{page.describe} is inserted twice"
  | pageClaimedTwice page => s!"{page.describe} is claimed twice"
  | unloadedResident page => s!"uninit page {page.describe} is never resident"
  | slotHeld => "assertion failed: self.slot.is_none()"
  | headsNoMapping page => s!"anon page {page.describe} heads no mapping"
  | segmentTooLong => "assertion failed: read_bytes <= PAGE_SIZE"
  | accessStuck => "user access made no progress"

inductive Failure
  | errno (e : Errno)
  | panic (p : Panic)
deriving DecidableEq, Inhabited

end Pager
