import Pager.Config
import Pager.Event
import Pager.FrameTable
import Pager.Ram
import Pager.Swap

namespace Pager

structure Machine where
  config : Config := {}
  ram : Ram := {}
  frames : FrameTable := {}
  swap : Swap := {}
  spaces : Store Space := {}
  files : Store File := {}
  runs : Store Nat := {}
  log : Array Event := #[]

instance : Inhabited Machine := ⟨{}⟩

namespace Machine

def emit (e : Event) (m : Machine) : Machine := { m with log := m.log.push e }

def boot (config : Config) (ram : Ram) (disk : Option Disk) (files : List File) : Machine :=
  emit (.swapReady (Swap.ofDisk disk).slotCount)
    { config := config, ram := ram, swap := .ofDisk disk, files := .ofList files }

def takeLog (m : Machine) : Array Event × Machine := (m.log, { m with log := #[] })

def space (m : Machine) (s : SpaceId) : Space := m.spaces.get s

def setSpace (s : SpaceId) (x : Space) (m : Machine) : Machine :=
  { m with spaces := m.spaces.set s x }

def pages (m : Machine) (s : SpaceId) : PageMap := (m.space s).pages

def page? (m : Machine) (id : PageId) : Option Page := (m.pages id.space).get? id.page

def find? (m : Machine) (s : SpaceId) (a : VirtAddr) : Option Page := m.page? ⟨s, a.page⟩

def setPage (id : PageId) (p : Page) (m : Machine) : Machine :=
  m.setSpace id.space { m.space id.space with pages := (m.pages id.space).set id.page p }

def erasePage (id : PageId) (m : Machine) : Machine :=
  m.setSpace id.space { m.space id.space with pages := (m.pages id.space).erase id.page }

def table (m : Machine) (s : SpaceId) : PageTable := (m.space s).table

def setTable (s : SpaceId) (t : PageTable) (m : Machine) : Machine :=
  m.setSpace s { m.space s with table := t }

def mapping? (m : Machine) (id : PageId) : Option Entry := (m.table id.space).get? id.page

def hasFlag (m : Machine) (id : PageId) (f : Flag) : Bool := (m.table id.space).has id.page f

def setFlag (id : PageId) (f : Flag) (on : Bool) (m : Machine) : Machine :=
  m.setTable id.space ((m.table id.space).set id.page f on)

def unmapPage (id : PageId) (m : Machine) : Machine :=
  m.setTable id.space ((m.table id.space).clear id.page)

def refuse (s : SpaceId) (t : Trap) (m : Machine) : Machine :=
  m.setSpace s { m.space s with refusals := t }

def onFrames (f : FrameTable → FrameTable) (m : Machine) : Machine :=
  { m with frames := f m.frames }

/-- The page in a frame, if it is still registered. -/
def tenant? (m : Machine) (fr : Frame) : Option PageId :=
  fr.owner.filter (fun id => (m.page? id).isSome)

def residentCount (m : Machine) : Nat :=
  (m.frames.frames.toList.filter (fun fr => (m.tenant? fr).isSome)).length

def note (e : Event) : Step Machine Unit := modify (emit e)

def requireOr (c : Bool) (e : Event) (n : Errno) : Step Machine Unit :=
  if c then pure ()
  else do
    note e
    Step.fail n

/-- Maps a page, unless its page table has no room for the entry. -/
def install (id : PageId) (p : PhysPage) (writable : Bool) : Step Machine Unit := fun m =>
  let s := m.space id.space
  match s.refusals.ask with
  | (true, t) => .error (.errno .enomem) (m.setSpace id.space { s with refusals := t })
  | (false, t) => .ok () (m.setSpace id.space
      { s with refusals := t, table := s.table.install id.page p writable })

def frame (f : FrameId) : Step Machine Frame := do
  let t := (← get).frames
  Step.ofOption (.outOfBounds t.size f.index) (t.get? f)

def readFrame (p : PhysPage) : Step Machine PageBytes := do
  Step.ofExcept ((← get).ram.read p)

def writeFrame (p : PhysPage) (b : PageBytes) : Step Machine Unit := do
  let r ← Step.ofExcept ((← get).ram.write p b)
  modify (fun m => { m with ram := r })

/-- Lets an operation work on the bytes of a physical page. What it has done to
them by the time it fails stays. -/
def inFrame (p : PhysPage) (x : Step (Machine × PageBytes) Unit) : Step Machine Unit := do
  let b ← readFrame p
  fun m =>
    match x (m, b) with
    | .ok () (m, b) => writeFrame p b m
    | .error e (m, b) => (do writeFrame p b; throw e : Step Machine Unit) m

def onSwap {α : Type} (x : Step Swap α) : Step Machine α :=
  Step.zoom swap (fun w m => { m with swap := w }) id x

def onFile {α : Type} (f : FileId) (x : EStateM Errno File α) : Step Machine α :=
  Step.zoom (fun m => m.files.get f) (fun d m => { m with files := m.files.set f d }) .errno x

def allocSlot : Step Machine Slot :=
  Step.handle (onSwap Swap.alloc) (fun e => do note .swapExhausted; Step.fail e)

def freeSlot (slot : Slot) : Step Machine Unit := onSwap (Swap.free slot)

def writeSlot (slot : Slot) (b : PageBytes) : Step Machine Unit := onSwap (Swap.write slot b)

def onSwapPage (x : Step (Swap × PageBytes) Unit) : Step (Machine × PageBytes) Unit :=
  Step.zoom (fun p => (p.1.swap, p.2)) (fun q p => ({ p.1 with swap := q.1 }, q.2)) id x

def readSlot (slot : Slot) : Step (Machine × PageBytes) Unit := onSwapPage (Swap.read slot)

end Machine

end Pager
