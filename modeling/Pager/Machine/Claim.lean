import Pager.Machine.Eviction
import Pager.Machine.Loading

namespace Pager.Machine

def insert (id : PageId) (page : Page) : Step Machine Unit := do
  let m ← get
  let pages ← Step.ofExcept ((m.pages id.space).insertNew id.page page)
  set (m.setSpace id.space { m.space id.space with pages := pages })

def register (id : PageId) (page : Page) : Step Machine Unit := do
  Step.require (!((← get).pages id.space).contains id.page) .eexist
  insert id page

def demandHead (id : PageId) (count : Nat) : Step Machine Unit := do
  let m ← get
  Step.demand (count == 0 || (m.page? id).all Page.canHead) (.headsNoMapping id.page)

def alloc (s : SpaceId) (type : PageType) (a : VirtAddr) (writable : Bool)
    (loader : Option Loader) : Step Machine Unit :=
  match type with
  | .uninit => Step.fail .einval
  | .pageCache => Step.fail .unsupported
  | .anon => register ⟨s, a.page⟩ (.unloaded writable .anon loader 0)
  | .file => register ⟨s, a.page⟩ (.unloaded writable .file loader 0)

def demandIdle (id : PageId) : Step Machine Unit := do
  let m ← get
  Step.demand ((m.page? id).all (fun page => !page.resident)) (.pageClaimedTwice id.page)

/-- Gives a page that is in no frame a frame with its bytes, which is left
pinned. If any step fails the frame is free again and the page as before. -/
def occupy (id : PageId) (page : Page) : Step Machine (FrameId × PhysPage) := do
  let (f, p) ← acquireFrame
  Step.onFailure (demandIdle id) (modify (onFrames (fun t => t.unpin f)))
  Step.onFailure
    (do
      install id p page.writable
      let c ← fetch id page.content p
      modify (fun m =>
        (m.setPage id { page with frame? := some f, content := c }).onFrames
          (fun t => t.bind f id)))
    (modify (fun m => (m.unmapPage id).onFrames (fun t => (t.unbind f).unpin f)))
  note (.claimed id.page p)
  pure (f, p)

/-- Makes a page accessible. One that is in a frame already only gets a fresh
mapping, which counts as neither accessed nor dirty. -/
def claimPage (id : PageId) (page : Page) : Step Machine Unit := do
  match page.frame? with
  | some f =>
      let fr ← frame f
      install id fr.page page.writable
  | none =>
      let (f, _) ← occupy id page
      modify (onFrames (fun t => t.unpin f))

def claim (s : SpaceId) (a : VirtAddr) : Step Machine Unit := do
  match (← get).find? s a with
  | none => Step.fail .efault
  | some page => claimPage ⟨s, a.page⟩ page

def setUpStack (s : SpaceId) : Step Machine VirtAddr := do
  let top := (← get).config.stackTop
  let a ← Step.ofOption .subOverflow (top.sub? pageSize)
  alloc s .anon a true none
  claim s a
  pure top

def exitStatus {α : Type} (r : Except Errno α) : Step Machine (Option Int) :=
  match r with
  | .ok _ => pure none
  | .error e => do
      note (.killed e)
      pure (some killedStatus)

end Pager.Machine
