import Pager.Descriptors
import Pager.Machine.Claim
import Pager.Machine.Release

namespace Pager.Machine

def pagesFor (len : Nat) : Nat := (len + (pageSize - 1)) / pageSize

def mappedPage (file : FileId) (offset backed : Nat) (writable : Bool) (count i : Nat) : Page where
  writable := writable
  content := .unloaded .file
    (some (.segment ⟨file, offset + i * pageSize, min (backed - i * pageSize) pageSize,
      Nat.min_le_right _ _⟩))
    (if i = 0 then count else 0)

/-- Registers pages of a mapping. If one of them is refused, those before it,
which are `done`, are removed again. -/
def registerAll (s : SpaceId) (start : VirtPage) (page : Nat → Page) (done : List VirtPage) :
    List Nat → Step Machine Unit
  | [] => pure ()
  | i :: is => do
      let v ← Step.ofOption .addOverflow (start.add? i)
      Step.handle (register ⟨s, v⟩ (page i)) (fun e => do
        removeAll s done.reverse
        Step.fail e)
      registerAll s start page (v :: done) is

def overlaps (m : Machine) (s : SpaceId) (start : VirtPage) (count : Nat) : Bool :=
  (m.pages s).keys.any (fun v => start.toNat ≤ v.toNat && v.toNat < start.toNat + count)

def mmap (s : SpaceId) (a : VirtAddr) (len : Nat) (writable : Bool) (file : FileId)
    (offset : Nat) : Step Machine VirtAddr := do
  let m ← get
  let count := pagesFor len
  let size := (m.files.get file).size
  Step.require (len != 0 && a.aligned && offset % pageSize == 0) .einval
  Step.require (m.config.isUserRange a len) .einval
  Step.require (size != 0) .einval
  Step.require (offset + count * pageSize < wordBound) .einval
  requireOr (!m.overlaps s a.page count) (.overlap a) .eexist
  onFile file File.reopen
  registerAll s a.page (mappedPage file offset (min (size - offset) len) writable count) []
    (List.range count)
  demandHead ⟨s, a.page⟩ count
  note (.mapped count a offset)
  pure a

def mmapDescriptor (s : SpaceId) (a : VirtAddr) (len : Nat) (writable : Bool) (fd : Nat)
    (fds : Descriptors) (offset : Nat) : Step Machine VirtAddr := do
  requireOr (consoleDescriptors ≤ fd) (.consoleMapped fd) .ebadf
  match fds.get? fd with
  | none => Step.fail .ebadf
  | some file => mmap s a len writable file offset

def removeFrom (s : SpaceId) (start : VirtPage) : List Nat → Step Machine Unit
  | [] => pure ()
  | i :: is => do
      let v ← Step.ofOption .addOverflow (start.add? i)
      discard (removePage ⟨s, v⟩)
      removeFrom s start is

/-- Removes as many pages as the mapping has that the page at `a` heads, so none
if it heads none. -/
def munmap (s : SpaceId) (a : VirtAddr) : Step Machine Unit := do
  match (← get).find? s a with
  | none => pure ()
  | some page =>
      removeFrom s a.page (List.range page.span)
      note (.unmapped page.span a)

end Pager.Machine
