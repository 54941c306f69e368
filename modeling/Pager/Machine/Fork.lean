import Pager.Machine.Claim
import Pager.Machine.Release

namespace Pager.Machine

/-- Puts the bytes of a page into a frame. A page of a file that is in no frame
has none of its own: a copy of it reads the file. -/
def copyContent (id : PageId) (p : PhysPage) : Step Machine Unit := do
  match (← get).page? id with
  | none => pure ()
  | some page =>
      match page.frame?, page.content with
      | some f, _ => do
          let fr ← frame f
          writeFrame p (← readFrame fr.page)
      | none, .anon (some s) => inFrame p (readSlot s)
      | none, .anon none => writeFrame p (Bytes.zero pageSize)
      | none, _ => pure ()

def copyResident (parent child : PageId) : Step Machine Unit := do
  match (← get).page? child with
  | none => Step.fail .efault
  | some page =>
      let (f, p) ← occupy child page
      Step.ensuring (copyContent parent p) (modify (onFrames (fun t => t.unpin f)))

def copyPage (src dst : SpaceId) (v : VirtPage) : Step Machine Unit := do
  match (← get).page? ⟨src, v⟩ with
  | none => pure ()
  | some page =>
      match page.content with
      | .unloaded kind loader span =>
          register ⟨dst, v⟩ (.unloaded page.writable kind loader span)
          demandHead ⟨dst, v⟩ span
      | .anon _ =>
          register ⟨dst, v⟩ (.unloaded page.writable .anon none 0)
          copyResident ⟨src, v⟩ ⟨dst, v⟩
      | .file g span _ =>
          register ⟨dst, v⟩ (.unloaded page.writable .file (some (.segment g)) span)
          demandHead ⟨dst, v⟩ span
          if page.resident then copyResident ⟨src, v⟩ ⟨dst, v⟩

def copyPages (src dst : SpaceId) : List VirtPage → Step Machine Unit
  | [] => pure ()
  | v :: vs => do
      copyPage src dst v
      copyPages src dst vs

/-- Copies the pages of `src` in the order given. A failure leaves `dst` with the
pages copied before it. -/
def copyInOrder (src dst : SpaceId) (order : List VirtPage) : Step Machine Unit := do
  copyPages src dst order
  note (.copied ((← get).pages src).size)

def copyFrom (src dst : SpaceId) : Step Machine Unit := do
  copyInOrder src dst ((← get).pages src).keys

def forkInOrder (parent child : SpaceId) (refusals : Trap) (order : List VirtPage) :
    Step Machine Unit := do
  modify (create child refusals)
  Step.onFailure (copyInOrder parent child order) (drop child)

def fork (parent child : SpaceId) (refusals : Trap) : Step Machine Unit := do
  forkInOrder parent child refusals ((← get).pages parent).keys

end Pager.Machine
