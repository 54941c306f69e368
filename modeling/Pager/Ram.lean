import Pager.Bytes
import Pager.Panic

namespace Pager

/-- The physical pages for user data. `free` is a stack: the page given back
last is handed out first. -/
structure Ram where
  pages : Array PageBytes := #[]
  free : List PhysPage := []
deriving Inhabited

namespace Ram

def firstPage : Nat := 0x80200

def ofCapacity (n : Nat) : Ram where
  pages := Array.replicate n (Bytes.zero pageSize)
  free := (List.range n).map (fun i => PhysPage.ofNat (firstPage + i))

def capacity (r : Ram) : Nat := r.pages.size

def alloc? (r : Ram) : Option (PhysPage × Ram) :=
  match r.free with
  | [] => none
  | p :: ps => some (p, { r with free := ps })

def dealloc (r : Ram) (p : PhysPage) : Except Panic Ram :=
  if p ∈ r.free then .error (.pageFreedTwice p) else .ok { r with free := p :: r.free }

def index (r : Ram) (p : PhysPage) : Except Panic Nat :=
  if p.toNat < firstPage then .error .subOverflow
  else if p.toNat - firstPage < r.capacity then .ok (p.toNat - firstPage)
  else .error (.outOfBounds r.capacity (p.toNat - firstPage))

def read (r : Ram) (p : PhysPage) : Except Panic PageBytes :=
  (r.index p).map (fun i => r.pages.getD i (Bytes.zero pageSize))

def write (r : Ram) (p : PhysPage) (b : PageBytes) : Except Panic Ram :=
  (r.index p).map (fun i => { r with pages := r.pages.setIfInBounds i b })

def allocAll : Nat → Ram → List PhysPage × Ram
  | 0, r => ([], r)
  | n + 1, r =>
      match r.alloc? with
      | none => ([], r)
      | some (p, r) =>
          let (ps, r) := allocAll n r
          (p :: ps, r)

def deallocAll : Ram → List PhysPage → Except Panic Ram
  | r, [] => .ok r
  | r, p :: ps => (r.dealloc p).bind (fun r => r.deallocAll ps)

end Ram

end Pager
