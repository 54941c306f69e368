import Pager.Address

namespace Pager

structure Config where
  stackTop : VirtAddr := ⟨0x47480000⟩
  stackLimit : Nat := 0x100000
  kernelBase : VirtAddr := ⟨0x8004000000⟩
deriving DecidableEq, Inhabited

/-- How far below the stack pointer an instruction may reach while it pushes. -/
def stackSlack : Nat := 32

def killedStatus : Int := -1

namespace Config

def isKernel (c : Config) (a : VirtAddr) : Bool := c.kernelBase.toNat ≤ a.toNat

/-- The kernel lies at the top, so that a range that ends at or below it cannot
wrap around. -/
def isUserRange (c : Config) (a : VirtAddr) (len : Nat) : Bool :=
  !a.isNull && a.toNat + len ≤ c.kernelBase.toNat

def stackBottom (c : Config) : Nat := c.stackTop.toNat - c.stackLimit

def inStack (c : Config) (a : VirtAddr) : Bool :=
  c.stackBottom ≤ a.toNat && a.toNat < c.stackTop.toNat

def growsStack (c : Config) (a sp : VirtAddr) : Bool :=
  c.inStack a && sp.toNat ≤ min (a.toNat + stackSlack) (wordBound - 1)

end Config

end Pager
