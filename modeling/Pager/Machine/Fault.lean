import Pager.Machine.Claim

namespace Pager.Machine

def growStack (s : SpaceId) (a : VirtAddr) : Step Machine Unit := do
  let bottom := a.page.start
  note (.stackGrown bottom)
  alloc s .anon bottom true none
  claim s bottom

def handleFault (s : SpaceId) (a : VirtAddr) (flags : FaultFlags) (sp : VirtAddr) :
    Step Machine Unit := do
  note (.fault a flags)
  let m ← get
  requireOr (!a.isNull && !m.config.isKernel a) (.invalidAddress a) .efault
  requireOr (flags.contains .notPresent) (.readOnly a) .eacces
  match m.find? s a with
  | none =>
      requireOr (m.config.growsStack a sp) (.unmappedAddress a) .efault
      growStack s a
  | some page =>
      requireOr (!flags.contains .write || page.writable) (.readOnly a) .eacces
      claimPage ⟨s, a.page⟩ page

/-- Checks `n` pages from `a` on, of which the first that cannot be accessed
decides. -/
def checkPages (pages : PageMap) (write : Bool) : Nat → VirtAddr → Except Failure Unit
  | 0, _ => .ok ()
  | n + 1, a =>
      match pages.find? a with
      | none => .error (.errno .efault)
      | some page =>
          if write && !page.writable then .error (.errno .eacces)
          else
            match a.add? pageSize with
            | none => .error (.panic .addOverflow)
            | some b => checkPages pages write n b

def checkBuffer (m : Machine) (s : SpaceId) (a : VirtAddr) (len : Nat) (write : Bool) :
    Except Failure Unit :=
  if len = 0 then .ok ()
  else if m.config.isUserRange a len then
    checkPages (m.pages s) write ((a.offset + len + (pageSize - 1)) / pageSize) a.page.start
  else .error (.errno .efault)

end Pager.Machine
