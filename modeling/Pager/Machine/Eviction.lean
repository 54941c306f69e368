import Pager.Machine

namespace Pager.Machine

def takeAccessed (id : PageId) (m : Machine) : Bool × Machine :=
  if m.hasFlag id .accessed then (true, m.setFlag id .accessed false) else (false, m)

/-- Turns the hand at most `n` frames on. A pinned frame is passed over, and so
is one whose page was accessed since the hand last came by. -/
def turnHand : Nat → Machine → Option FrameId × Machine
  | 0, m => (none, m)
  | n + 1, m =>
      let f : FrameId := ⟨m.frames.hand⟩
      match m.frames.get? f with
      | none => (none, m)
      | some fr =>
          let m := m.onFrames FrameTable.advance
          if fr.pinned then turnHand n m
          else
            match m.tenant? fr with
            | none => (some f, m)
            | some id =>
                match m.takeAccessed id with
                | (true, m) => turnHand n m
                | (false, m) => (some f, m)

def chooseVictim (m : Machine) : Option FrameId × Machine := m.turnHand (2 * m.frames.size)

def writeBack (id : PageId) (g : Segment) (dirty : Bool) (b : PageBytes) : Step Machine Unit := do
  let changed := dirty || (← get).hasFlag id .dirty
  modify (unmapPage id)
  if changed then
    note (.writingBack id.page g.offset)
    onFile g.file (g.writeBack b)

def saveAnon (id : PageId) (page : Page) (held : Option Slot) (b : PageBytes) :
    Step Machine Unit := do
  Step.demand held.isNone .slotHeld
  let slot ← allocSlot
  modify (unmapPage id)
  Step.handle (writeSlot slot b) (fun e => do
    freeSlot slot
    Step.fail e)
  note (.swappedOut id.page slot)
  modify (setPage id { page with frame? := none, content := .anon (some slot) })

/-- A page that could not be written stays in its frame and counts as changed,
though its mapping is gone. -/
def saveFile (id : PageId) (page : Page) (g : Segment) (span : Nat) (dirty : Bool)
    (b : PageBytes) : Step Machine Unit := do
  Step.handle (writeBack id g dirty b) (fun e => do
    modify (setPage id { page with content := .file g span true })
    Step.fail e)
  modify (setPage id { page with frame? := none, content := .file g span false })

def swapOut (id : PageId) (f : FrameId) (b : PageBytes) : Step Machine Unit := do
  match (← get).page? id with
  | none => pure ()
  | some page =>
      if page.frame? = some f then
        match page.content with
        | .unloaded _ _ _ => Step.halt (.unloadedResident id.page)
        | .anon held => saveAnon id page held b
        | .file g span dirty => saveFile id page g span dirty b
      else pure ()

/-- Makes the page in a frame leave it. One that cannot leave stays its owner. -/
def vacate (f : FrameId) (p : PhysPage) : Option PageId → Step Machine Unit
  | none => pure ()
  | some id => do
      note (.evicting id.page f)
      let b ← readFrame p
      Step.handle (swapOut id f b) (fun e => do
        note (.evictionFailed id.page e)
        modify (onFrames (fun t => (t.bind f id).unpin f))
        Step.fail e)

def pickVictim : Step Machine FrameId := do
  match ← modifyGet chooseVictim with
  | some f => pure f
  | none =>
      note (.noVictim (← get).frames.size)
      Step.halt .outOfFrames

def evict : Step Machine (FrameId × PhysPage) := do
  let f ← pickVictim
  let fr ← frame f
  let tenant := (← get).tenant? fr
  modify (onFrames (fun t => (t.unbind f).pin f))
  vacate f fr.page tenant
  pure (f, fr.page)

def addFrame (p : PhysPage) : Step Machine (FrameId × PhysPage) := do
  let f ← modifyGet (fun m =>
    let (f, t) := m.frames.push { page := p, pinned := true }
    (f, { m with frames := t }))
  note (.frameAdded f p)
  pure (f, p)

def takeFrame : Step Machine (FrameId × PhysPage) := do
  match (← get).ram.alloc? with
  | none => evict
  | some (p, r) =>
      modify (fun m => { m with ram := r })
      addFrame p

/-- A pinned frame full of zeros: a new one while there are free pages, and then
one taken from another page. -/
def acquireFrame : Step Machine (FrameId × PhysPage) := do
  let (f, p) ← takeFrame
  writeFrame p (Bytes.zero pageSize)
  pure (f, p)

end Pager.Machine
