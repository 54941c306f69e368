import Pager.Bytes
import Pager.Errno
import Pager.Trap

namespace Pager

abbrev FileId := Nat

/-- A file in memory. Its length is fixed: no write makes it longer. -/
structure File where
  data : Array UInt8 := #[]
  writes : Nat := 0
  failingWrites : Nat := 0
  readTrap : Trap := {}
  shortReadTrap : Trap := {}
  shortWriteTrap : Trap := {}
  reopenTrap : Trap := {}
deriving Inhabited

namespace File

def ofList (bs : List UInt8) : File := { data := bs.toArray }

def size (f : File) : Nat := f.data.size

def bytesAt (f : File) (offset len : Nat) : List UInt8 :=
  Bytes.slice f.data.toVector offset len

def store (offset : Nat) (bs : List UInt8) : EStateM Errno File Nat := fun f =>
  match f.failingWrites with
  | n + 1 => .error .eio { f with failingWrites := n }
  | 0 => .ok (min bs.length (f.size - offset))
      { f with data := (Bytes.splice f.data.toVector offset bs).toArray, writes := f.writes + 1 }

def readAt (offset len : Nat) : EStateM Errno File (List UInt8) := fun f =>
  match f.readTrap.ask with
  | (true, t) => .error .eio { f with readTrap := t }
  | (false, t) =>
      match f.shortReadTrap.ask with
      | (true, u) => .ok (f.bytesAt offset (len - 1)) { f with readTrap := t, shortReadTrap := u }
      | (false, u) => .ok (f.bytesAt offset len) { f with readTrap := t, shortReadTrap := u }

def writeAt (offset : Nat) (bs : List UInt8) : EStateM Errno File Nat := fun f =>
  match f.shortWriteTrap.ask with
  | (true, t) => store offset bs.dropLast { f with shortWriteTrap := t }
  | (false, t) => store offset bs { f with shortWriteTrap := t }

def reopen : EStateM Errno File Unit := fun f =>
  match f.reopenTrap.ask with
  | (true, t) => .error .enomem { f with reopenTrap := t }
  | (false, t) => .ok () { f with reopenTrap := t }

end File

end Pager
