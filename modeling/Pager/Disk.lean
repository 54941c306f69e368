import Pager.Bytes
import Pager.Errno
import Pager.Store
import Pager.Trap

namespace Pager

/-- A block device. Sectors that were never written hold zeros. -/
structure Disk where
  count : Nat
  sectors : Store SectorBytes := {}
  writes : Nat := 0
  readTrap : Trap := {}
  writeTrap : Trap := {}

namespace Disk

def ofCount (n : Nat) : Disk := { count := n }

def read (i : Nat) : EStateM Errno Disk SectorBytes := fun d =>
  match d.readTrap.ask with
  | (true, t) => .error .eio { d with readTrap := t }
  | (false, t) =>
      if i < d.count then .ok (d.sectors.get i) { d with readTrap := t }
      else .error .eio { d with readTrap := t }

def write (i : Nat) (b : SectorBytes) : EStateM Errno Disk Unit := fun d =>
  match d.writeTrap.ask with
  | (true, t) => .error .eio { d with writeTrap := t }
  | (false, t) =>
      if i < d.count then
        .ok () { d with sectors := d.sectors.set i b, writes := d.writes + 1, writeTrap := t }
      else .error .eio { d with writeTrap := t }

end Disk

end Pager
