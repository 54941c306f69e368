import Pager.Segment

namespace Pager

/-- Computes a page. Its `n`th run gets `n` and the page as it is, and leaves a
page behind also when it fails. Runs are counted under `key`, by every page
that shares the producer. -/
structure Producer where
  key : Nat
  run : Nat → PageBytes → PageBytes × Option Errno

inductive Loader
  | segment (s : Segment)
  | producer (p : Producer)

def Loader.backing? : Loader → Option Segment
  | segment s => some s
  | producer _ => none

/-- Adds `add` to every byte and puts `data` at `start`. Fails with `errno`, if
given, in the first `fails` runs, or in all of them. -/
structure Patch where
  data : List UInt8 := []
  start : Nat := 0
  add : UInt8 := 0
  errno : Option Errno := none
  fails : Option Nat := none
deriving Inhabited

namespace Patch

def page (p : Patch) (b : PageBytes) : PageBytes :=
  Bytes.splice (b.map (fun x => x + p.add)) p.start p.data

def run (p : Patch) (n : Nat) (b : PageBytes) : PageBytes × Option Errno :=
  (p.page b, if p.fails.all (fun k => n < k) then p.errno else none)

def producer (p : Patch) (key : Nat) : Producer := ⟨key, p.run⟩

end Patch

end Pager
