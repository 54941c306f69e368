import Pager.Machine.Eviction

namespace Pager.Machine

/-- Gives up what a page holds, with its bytes if it is in a frame. A changed page
of a file is written back; if that fails the changes are lost. -/
def giveUp (id : PageId) : Content → Option PageBytes → Step Machine Unit
  | .unloaded _ _ _, _ => pure ()
  | .anon slot, b => do
      slot.forM freeSlot
      if b.isSome then modify (unmapPage id)
  | .file _ _ _, none => pure ()
  | .file g _ dirty, some b =>
      Step.handle (writeBack id g dirty b) (fun e => note (.writeBackLost id.page e))

def destroy (id : PageId) (page : Page) : Step Machine Unit :=
  match page.frame? with
  | none => giveUp id page.content none
  | some f => do
      let fr ← frame f
      let b ← readFrame fr.page
      giveUp id page.content (some b)
      modify (onFrames (fun t => t.unbind f))

def removePage (id : PageId) : Step Machine Bool := do
  match (← get).page? id with
  | none => pure false
  | some page =>
      modify (erasePage id)
      destroy id page
      pure true

def remove (s : SpaceId) (a : VirtAddr) : Step Machine Bool := removePage ⟨s, a.page⟩

def removeAll (s : SpaceId) : List VirtPage → Step Machine Unit
  | [] => pure ()
  | v :: vs => do
      discard (removePage ⟨s, v⟩)
      removeAll s vs

/-- Destroys the pages of a space in the order given, which should name each of
them. The space can be used again. -/
def killInOrder (s : SpaceId) (order : List VirtPage) : Step Machine Unit := do
  let n := ((← get).pages s).size
  removeAll s order
  if 0 < n then note (.destroyed n)

def kill (s : SpaceId) : Step Machine Unit := do
  killInOrder s ((← get).pages s).keys

def create (s : SpaceId) (refusals : Trap) (m : Machine) : Machine :=
  m.setSpace s { refusals := refusals }

def drop (s : SpaceId) : Step Machine Unit := do
  kill s
  modify (setSpace s default)

/-- Drops the spaces in the order given, each of them even if one before it
panics. -/
def dropAll : List SpaceId → Step Machine Unit
  | [] => pure ()
  | s :: ss => Step.ensuring (drop s) (dropAll ss)

def shutDown : Step Machine Unit := do
  let m ← get
  let r ← Step.ofExcept (m.ram.deallocAll (m.frames.frames.toList.map Frame.page))
  set { m with ram := r, frames := {} }

end Pager.Machine
