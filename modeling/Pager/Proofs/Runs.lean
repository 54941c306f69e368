import Pager.Proofs.Accessing
import Pager.Proofs.Copying
import Pager.Proofs.Mapping

namespace Pager

open Step

/-- What a program can ask of the system, and how its devices can be made to
fail. A list of pages is the order in which an operation walks a space. -/
inductive Op
  | create (s : SpaceId) (refusals : Trap)
  | drop (s : SpaceId) (order : List VirtPage)
  | kill (s : SpaceId) (order : List VirtPage)
  | fork (parent child : SpaceId) (refusals : Trap) (order : List VirtPage)
  | copyFrom (src dst : SpaceId) (order : List VirtPage)
  | alloc (s : SpaceId) (type : PageType) (a : VirtAddr) (writable : Bool) (loader : Option Loader)
  | claim (s : SpaceId) (a : VirtAddr)
  | fault (s : SpaceId) (a : VirtAddr) (flags : FaultFlags) (sp : VirtAddr)
  | setUpStack (s : SpaceId)
  | read (s : SpaceId) (a : VirtAddr) (len : Nat) (sp : VirtAddr)
  | write (s : SpaceId) (a : VirtAddr) (data : List UInt8) (sp : VirtAddr)
  | mmap (s : SpaceId) (a : VirtAddr) (len : Nat) (writable : Bool) (file : FileId) (offset : Nat)
  | mmapDescriptor (s : SpaceId) (a : VirtAddr) (len : Nat) (writable : Bool) (fd : Nat)
      (fds : Descriptors) (offset : Nat)
  | munmap (s : SpaceId) (a : VirtAddr)
  | remove (s : SpaceId) (a : VirtAddr)
  | refuse (s : SpaceId) (refusals : Trap)
  | armDisk (reads writes : Trap)
  | armFile (file : FileId) (failing : Nat) (reads shortReads shortWrites reopens : Trap)

/-- Bytes that were stored at a place within a page. -/
structure Piece where
  id : PageId
  start : Nat
  bytes : List UInt8

/-- What comes of an operation: its failure, the bytes that were read, also by a
read that failed later, the pieces that were stored, and the world after each
piece of an access, or else after the operation. -/
structure Report where
  failure : Option Failure := none
  bytes : List UInt8 := []
  stored : List Piece := []
  worlds : List World := []

namespace Machine

def world (m : Machine) : World := m.layout.world

def writeTrail (s : SpaceId) (a sp : VirtAddr) (done : Nat) (data : List UInt8) (m : Machine) :
    List (Piece × World) :=
  if _ : data = [] then []
  else
    match a.add? done with
    | none => []
    | some cur =>
        match writePiece s cur sp (data.take (inPage cur data.length)) m with
        | .error _ _ => []
        | .ok _ t =>
            (⟨⟨s, cur.page⟩, cur.offset, data.take (inPage cur data.length)⟩, t.world) ::
              writeTrail s a sp (done + inPage cur data.length)
                (data.drop (inPage cur data.length)) t
termination_by data.length
decreasing_by
  have := inPage_pos cur (List.length_pos_iff.mpr ‹¬data = []›)
  have := inPage_le cur data.length
  simp only [List.length_drop]
  omega

def readTrail (s : SpaceId) (a sp : VirtAddr) (done len : Nat) (m : Machine) : List World :=
  if _ : len = 0 then []
  else
    match a.add? done with
    | none => []
    | some cur =>
        match readPiece s cur sp (inPage cur len) m with
        | .error _ _ => []
        | .ok _ t =>
            t.world :: readTrail s a sp (done + inPage cur len) (len - inPage cur len) t
termination_by len
decreasing_by
  have := inPage_pos cur (Nat.pos_of_ne_zero ‹¬len = 0›)
  have := inPage_le cur len
  omega

def perform {α : Type} (x : Step Machine α) (m : Machine) : Report × Machine :=
  match x m with
  | .ok _ t => ({ worlds := [t.world] }, t)
  | .error e t => ({ failure := some e, worlds := [t.world] }, t)

def performWrite (s : SpaceId) (a : VirtAddr) (data : List UInt8) (sp : VirtAddr) (m : Machine) :
    Report × Machine :=
  let trail := writeTrail s a sp 0 data m
  let (r, t) := perform (writeUser s a data sp) m
  ({ r with stored := trail.map Prod.fst, worlds := trail.map Prod.snd }, t)

def performRead (s : SpaceId) (a : VirtAddr) (len : Nat) (sp : VirtAddr) (m : Machine) :
    Report × Machine :=
  let worlds := readTrail s a sp 0 len m
  match readUser s a len sp (m, []) with
  | .ok _ (t, bs) => ({ bytes := bs, worlds := worlds }, t)
  | .error e (t, bs) => ({ failure := some e, bytes := bs, worlds := worlds }, t)

end Machine

namespace Op

open Machine

def run (m : Machine) : Op → Report × Machine
  | create s refusals => perform (modify (Machine.create s refusals) : Step Machine Unit) m
  | drop s order =>
      perform (do killInOrder s order; modify (setSpace s default) : Step Machine Unit) m
  | kill s order => perform (killInOrder s order) m
  | fork parent child refusals order => perform (forkInOrder parent child refusals order) m
  | copyFrom src dst order => perform (copyInOrder src dst order) m
  | alloc s type a writable loader => perform (Machine.alloc s type a writable loader) m
  | claim s a => perform (Machine.claim s a) m
  | fault s a flags sp => perform (handleFault s a flags sp) m
  | setUpStack s => perform (Machine.setUpStack s) m
  | read s a len sp => performRead s a len sp m
  | write s a data sp => performWrite s a data sp m
  | mmap s a len writable file offset => perform (Machine.mmap s a len writable file offset) m
  | mmapDescriptor s a len writable fd fds offset =>
      perform (Machine.mmapDescriptor s a len writable fd fds offset) m
  | munmap s a => perform (Machine.munmap s a) m
  | remove s a => perform (Machine.remove s a) m
  | refuse s t => perform (modify (Machine.refuse s t) : Step Machine Unit) m
  | armDisk reads writes =>
      perform (modify (fun m => m.withSwap { m.swap with
        disk := m.swap.disk.map (fun d => { d with readTrap := reads, writeTrap := writes }) }) :
        Step Machine Unit) m
  | armFile file failing reads shortReads shortWrites reopens =>
      perform (modify (fun m => m.withFile file { m.files.get file with
        failingWrites := failing, readTrap := reads, shortReadTrap := shortReads,
        shortWriteTrap := shortWrites, reopenTrap := reopens }) : Step Machine Unit) m

/-- A space that is made is a new one, a space is copied into another one, and
an operation that walks a space passes each of its pages once. -/
def Admissible (m : Machine) : Op → Prop
  | create s _ => ∀ v, m.page? ⟨s, v⟩ = none
  | drop s order | kill s order => order.Perm (m.pages s).keys
  | fork parent child _ order =>
      parent ≠ child ∧ (∀ v, m.page? ⟨child, v⟩ = none) ∧ order.Perm (m.pages parent).keys
  | copyFrom src dst order => src ≠ dst ∧ order.Perm (m.pages src).keys
  | _ => True

end Op

/-- Operations one after the other, each with what came of it. -/
inductive Runs : Machine → List (Op × Report) → Machine → Prop
  | nil (m : Machine) : Runs m [] m
  | cons {m t : Machine} {op : Op} {trail : List (Op × Report)} (ha : op.Admissible m)
      (h : Runs (op.run m).2 trail t) : Runs m ((op, (op.run m).1) :: trail) t

/-- A system that has just started. Its page tables can name all pages of its
memory, and a word can number all sectors of its disk. -/
def Starts (m : Machine) : Prop :=
  ∃ (config : Config) (n : Nat) (disk : Option Disk) (files : List File),
    Ram.firstPage + n ≤ Entry.pageBound ∧ (∀ d, disk = some d → d.count < wordBound) ∧
      m = .boot config (.ofCapacity n) disk files

/-- A state between two operations. -/
def Reachable (m : Machine) : Prop := ∃ m₀ trail, Starts m₀ ∧ Runs m₀ trail m

end Pager
