import Pager.BitNames

namespace Pager

structure FaultFlags where
  bits : UInt8
deriving DecidableEq, Inhabited

namespace FaultFlags

def notPresent : FaultFlags := ⟨1⟩

def write : FaultFlags := ⟨2⟩

def user : FaultFlags := ⟨4⟩

def known : UInt8 := 7

def union (f g : FaultFlags) : FaultFlags := ⟨f.bits ||| g.bits⟩

def contains (f g : FaultFlags) : Bool := f.bits &&& g.bits == g.bits

def ofBits? (b : UInt8) : Option FaultFlags := if b &&& known == b then some ⟨b⟩ else none

def truncate (b : UInt8) : FaultFlags := ⟨b &&& known⟩

def describe (f : FaultFlags) : String :=
  describeBits "PageFaultFlags" [(0, "NOT_PRESENT"), (1, "WRITE"), (2, "USER")] f.bits.toNat

end FaultFlags

end Pager
