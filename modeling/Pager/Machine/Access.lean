import Pager.Machine.Fault

namespace Pager.Machine

def faultFlags (present write : Bool) : FaultFlags :=
  if present then FaultFlags.user.union .write
  else if write then (FaultFlags.notPresent.union .user).union .write
  else FaultFlags.notPresent.union .user

def mark (id : PageId) (write : Bool) (m : Machine) : Machine :=
  let m := m.setFlag id .accessed true
  if write then m.setFlag id .dirty true else m

/-- Translates an address as the hardware does, which marks the page, and lets
faults be handled at most `n` times. -/
def touch (s : SpaceId) (a : VirtAddr) (write : Bool) (sp : VirtAddr) :
    Nat → Step Machine PhysPage
  | 0 => Step.halt .accessStuck
  | n + 1 => do
      let id : PageId := ⟨s, a.page⟩
      let m ← get
      match (m.table s).translate a.page with
      | some p =>
          if !write || m.hasFlag id .writable then
            modify (mark id write)
            pure p
          else
            handleFault s a (faultFlags true write) sp
            touch s a write sp n
      | none =>
          handleFault s a (faultFlags false write) sp
          touch s a write sp n

/-- A handled fault leaves the page mapped, so that the second try succeeds. -/
def retries : Nat := 2

def inPage (a : VirtAddr) (len : Nat) : Nat := min (pageSize - a.offset) len

theorem inPage_pos (a : VirtAddr) {len : Nat} (h : 0 < len) : 0 < inPage a len := by
  have := a.offset_lt
  unfold inPage
  omega

theorem inPage_le (a : VirtAddr) (len : Nat) : inPage a len ≤ len := Nat.min_le_right _ _

def writePiece (s : SpaceId) (a sp : VirtAddr) (bs : List UInt8) : Step Machine Unit := do
  let p ← touch s a true sp retries
  let b ← readFrame p
  writeFrame p (Bytes.splice b a.offset bs)

def readPiece (s : SpaceId) (a sp : VirtAddr) (n : Nat) : Step Machine (List UInt8) := do
  let p ← touch s a false sp retries
  let b ← readFrame p
  pure (Bytes.slice b a.offset n)

/-- Stores `data` at `a + done`, page by page. -/
def writeFrom (s : SpaceId) (a sp : VirtAddr) (done : Nat) (data : List UInt8) :
    Step Machine Unit :=
  if _ : data = [] then pure ()
  else
    match a.add? done with
    | none => Step.halt .addOverflow
    | some cur => do
        writePiece s cur sp (data.take (inPage cur data.length))
        writeFrom s a sp (done + inPage cur data.length) (data.drop (inPage cur data.length))
termination_by data.length
decreasing_by
  have := inPage_pos cur (List.length_pos_iff.mpr ‹¬data = []›)
  have := inPage_le cur data.length
  simp only [List.length_drop]
  omega

def writeUser (s : SpaceId) (a : VirtAddr) (data : List UInt8) (sp : VirtAddr) :
    Step Machine Unit :=
  writeFrom s a sp 0 data

def readFrom (s : SpaceId) (a sp : VirtAddr) (done len : Nat) :
    Step (Machine × List UInt8) Unit :=
  if _ : len = 0 then pure ()
  else
    match a.add? done with
    | none => Step.halt .addOverflow
    | some cur => do
        let bs ← Step.zoom Prod.fst (fun m x => (m, x.2)) id (readPiece s cur sp (inPage cur len))
        modify (fun x => (x.1, x.2 ++ bs))
        readFrom s a sp (done + inPage cur len) (len - inPage cur len)
termination_by len
decreasing_by
  have := inPage_pos cur (Nat.pos_of_ne_zero ‹¬len = 0›)
  have := inPage_le cur len
  omega

/-- The bytes that were read stay in the state also if a later page fails. -/
def readUser (s : SpaceId) (a : VirtAddr) (len : Nat) (sp : VirtAddr) :
    Step (Machine × List UInt8) Unit :=
  readFrom s a sp 0 len

end Pager.Machine
