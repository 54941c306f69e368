import Pager.Page
import Pager.PageTable

namespace Pager

abbrev SpaceId := Nat

/-- What every page of an address space should be. -/
structure PageMap where
  entries : Std.ExtTreeMap VirtPage Page := {}

namespace PageMap

instance : Inhabited PageMap := ⟨{}⟩

def get? (m : PageMap) (v : VirtPage) : Option Page := m.entries[v]?

def find? (m : PageMap) (a : VirtAddr) : Option Page := m.get? a.page

def contains (m : PageMap) (v : VirtPage) : Bool := (m.get? v).isSome

def set (m : PageMap) (v : VirtPage) (p : Page) : PageMap := ⟨m.entries.insert v p⟩

def erase (m : PageMap) (v : VirtPage) : PageMap := ⟨m.entries.erase v⟩

def insertNew (m : PageMap) (v : VirtPage) (p : Page) : Except Panic PageMap :=
  if m.contains v then .error (.pageInsertedTwice v) else .ok (m.set v p)

def size (m : PageMap) : Nat := m.entries.size

def isEmpty (m : PageMap) : Bool := m.entries.isEmpty

def keys (m : PageMap) : List VirtPage := m.entries.keys

theorem get?_set (m : PageMap) (v w : VirtPage) (p : Page) :
    (m.set v p).get? w = if v = w then some p else m.get? w := by
  simp [get?, set, Std.ExtTreeMap.getElem?_insert]

theorem get?_erase (m : PageMap) (v w : VirtPage) :
    (m.erase v).get? w = if v = w then none else m.get? w := by
  simp [get?, erase, Std.ExtTreeMap.getElem?_erase]

theorem mem_keys {m : PageMap} {v : VirtPage} : v ∈ m.keys ↔ m.contains v = true := by
  simp [keys, contains, get?]

end PageMap

/-- The address space of a process: its page table, which may refuse entries,
and its pages. -/
structure Space where
  table : PageTable := {}
  refusals : Trap := {}
  pages : PageMap := {}

instance : Inhabited Space := ⟨{}⟩

structure PageId where
  space : SpaceId
  page : VirtPage
deriving DecidableEq, Inhabited

end Pager
