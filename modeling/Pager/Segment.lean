import Pager.File
import Pager.Step

namespace Pager

/-- The part of a file that backs one page. The page holds zeros behind it. -/
structure Segment where
  file : FileId
  offset : Nat
  length : Nat
  length_le : length ≤ pageSize
deriving DecidableEq

inductive LoadError
  | errno (e : Errno)
  | short (read : Nat)
deriving DecidableEq, Inhabited

def LoadError.toErrno : LoadError → Errno
  | errno e => e
  | short _ => .eio

namespace Segment

def of (file : FileId) (offset length : Nat) : Except Panic Segment :=
  if h : length ≤ pageSize then .ok ⟨file, offset, length, h⟩ else .error .segmentTooLong

def zeros (s : Segment) : Nat := pageSize - s.length

def describe (s : Segment) : String :=
  "FileSegment \x7b offset: " ++ toString s.offset ++ ", read_bytes: " ++ toString s.length ++
    " \x7d"

/-- A read that comes back short leaves the bytes it got in the page. -/
def load (s : Segment) : EStateM LoadError (File × PageBytes) Unit := do
  let bs ← Step.zoom Prod.fst (fun f p => (f, p.2)) .errno (File.readAt s.offset s.length)
  modify (fun p => (p.1, Bytes.splice p.2 0 bs))
  if bs.length = s.length then modify (fun p => (p.1, Bytes.clearFrom p.2 s.length))
  else throw (.short bs.length)

def writeBack (s : Segment) (page : PageBytes) : EStateM Errno File Unit :=
  if s.length = 0 then pure ()
  else do
    let n ← File.writeAt s.offset (Bytes.slice page 0 s.length)
    if n = s.length then pure () else throw .eio

end Segment

end Pager
