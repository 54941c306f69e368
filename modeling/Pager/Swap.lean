import Pager.Disk
import Pager.Step
import Pager.Swap.Bitmap

namespace Pager

/-- Room on a disk for pages that have to leave memory. A slot is a run of
sectors as long as a page. Without a disk there are no slots. -/
structure Swap where
  disk : Option Disk := none
  bitmap : Swap.Bitmap := {}

namespace Swap

def ofDisk (d : Option Disk) : Swap where
  disk := d
  bitmap := .empty ((d.map Disk.count).getD 0 / sectorsPerPage)

def slotCount (s : Swap) : Nat := s.bitmap.slots

def usedSlots (s : Swap) : Nat := s.bitmap.used

def isUsed (s : Swap) (slot : Slot) : Bool := s.bitmap.test slot.index

def sectorWrites (s : Swap) : Nat := (s.disk.map Disk.writes).getD 0

def alloc : Step Swap Slot := fun s =>
  match s.bitmap.take? with
  | some (i, b) => .ok ⟨i⟩ { s with bitmap := b }
  | none => .error (.errno .enomem) s

def free (slot : Slot) : Step Swap Unit := do
  let s ← get
  Step.demand (s.isUsed slot) (.slotFreedTwice slot)
  Step.demand (s.bitmap.used != 0) .subOverflow
  set { s with bitmap := s.bitmap.unmark slot.index }

def onDisk {α : Type} (x : EStateM Errno Disk α) : Step Swap α := fun s =>
  match s.disk with
  | none => .error (.errno .enospc) s
  | some d => Step.zoom (fun _ => d) (fun d s => { s with disk := some d }) .errno x s

def sector (slot : Slot) (i : Nat) : Except Panic Nat :=
  if slot.index * sectorsPerPage < wordBound then .ok (slot.index * sectorsPerPage + i)
  else .error .mulOverflow

def sectorOfPage (page : PageBytes) (i : Nat) : SectorBytes :=
  Vector.ofFn (fun j => page.toArray.getD (i * sectorSize + j) 0)

def writeSectors (slot : Slot) (page : PageBytes) : List Nat → Step Swap Unit
  | [] => pure ()
  | i :: is => do
      let n ← Step.ofExcept (sector slot i)
      onDisk (Disk.write n (sectorOfPage page i))
      writeSectors slot page is

def write (slot : Slot) (page : PageBytes) : Step Swap Unit := do
  Step.require (← get).disk.isSome .enospc
  writeSectors slot page (List.range sectorsPerPage)

/-- Fills a page sector by sector, so that a page whose reading fails half way
holds the first sectors already. -/
def readSectors (slot : Slot) : List Nat → Step (Swap × PageBytes) Unit
  | [] => pure ()
  | i :: is => do
      let n ← Step.ofExcept (sector slot i)
      let b ← Step.zoom Prod.fst (fun s p => (s, p.2)) id (onDisk (Disk.read n))
      modify (fun p => (p.1, Bytes.splice p.2 (i * sectorSize) b.toList))
      readSectors slot is

def read (slot : Slot) : Step (Swap × PageBytes) Unit := do
  let s := (← get).1
  Step.require s.disk.isSome .enospc
  Step.demand (s.isUsed slot) .slotUnused
  readSectors slot (List.range sectorsPerPage)

def takeBack (slot : Slot) : Step (Swap × PageBytes) Unit := do
  read slot
  Step.zoom Prod.fst (fun s p => (s, p.2)) id (free slot)

end Swap

end Pager
