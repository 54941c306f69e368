import Pager.Geometry

namespace Pager

structure VirtAddr where
  val : UInt64
deriving DecidableEq, Inhabited

structure VirtPage where
  val : UInt64
deriving DecidableEq, Inhabited

structure PhysPage where
  val : UInt64
deriving DecidableEq, Inhabited

def hex (n : Nat) : String := "0x" ++ String.ofList (Nat.toDigits 16 n)

def wordAdd? (a : UInt64) (n : Nat) : Option UInt64 :=
  if a.toNat + n < wordBound then some (UInt64.ofNat (a.toNat + n)) else none

def wordSub? (a : UInt64) (n : Nat) : Option UInt64 :=
  if n ≤ a.toNat then some (UInt64.ofNat (a.toNat - n)) else none

namespace VirtAddr

def ofNat (n : Nat) : VirtAddr := ⟨UInt64.ofNat n⟩

def toNat (a : VirtAddr) : Nat := a.val.toNat

def offset (a : VirtAddr) : Nat := a.toNat % pageSize

def aligned (a : VirtAddr) : Bool := a.offset == 0

def isNull (a : VirtAddr) : Bool := a.toNat == 0

def page (a : VirtAddr) : VirtPage := ⟨a.val / 4096⟩

def pageCeil (a : VirtAddr) : VirtPage := ⟨UInt64.ofNat ((a.toNat + offsetMask) / pageSize)⟩

def add? (a : VirtAddr) (n : Nat) : Option VirtAddr := (wordAdd? a.val n).map mk

def sub? (a : VirtAddr) (n : Nat) : Option VirtAddr := (wordSub? a.val n).map mk

def describe (a : VirtAddr) : String := s!"VirtAddr({hex a.toNat})"

theorem toNat_lt (a : VirtAddr) : a.toNat < wordBound := a.val.toNat_lt

theorem add?_eq_none {a : VirtAddr} {n : Nat} : a.add? n = none ↔ wordBound ≤ a.toNat + n := by
  simp only [add?, wordAdd?, Option.map_eq_none_iff, ite_eq_right_iff, reduceCtorEq, imp_false,
    Nat.not_lt]
  rfl

theorem toNat_of_add? {a b : VirtAddr} {n : Nat} (h : a.add? n = some b) :
    b.toNat = a.toNat + n := by
  obtain ⟨w, hw, rfl⟩ := Option.map_eq_some_iff.mp h
  unfold wordAdd? at hw
  split at hw
  next hlt =>
    obtain rfl := Option.some.inj hw
    exact UInt64.toNat_ofNat_of_lt' hlt
  next => cases hw

theorem add?_zero (a : VirtAddr) : a.add? 0 = some a := by
  have ha : a.val.toNat + 0 < wordBound := a.toNat_lt
  rw [add?, wordAdd?, if_pos ha, Nat.add_zero, UInt64.ofNat_toNat]
  rfl

theorem sub?_eq_none {a : VirtAddr} {n : Nat} : a.sub? n = none ↔ a.toNat < n := by
  simp only [sub?, wordSub?, Option.map_eq_none_iff, ite_eq_right_iff, reduceCtorEq, imp_false,
    Nat.not_le]
  rfl

theorem offset_lt (a : VirtAddr) : a.offset < pageSize := Nat.mod_lt _ (by decide)

theorem page_eq_of_offset {a b : VirtAddr} {n : Nat} (h : b.toNat = a.toNat + n)
    (hn : a.offset + n < pageSize) : b.page = a.page ∧ b.offset = a.offset + n := by
  have ha : a.toNat % pageSize + n < pageSize := hn
  refine ⟨?_, ?_⟩
  · rw [VirtPage.mk.injEq, ← UInt64.toNat_inj]
    change b.toNat / pageSize = a.toNat / pageSize
    unfold pageSize at *
    omega
  · change b.toNat % pageSize = a.toNat % pageSize + n
    unfold pageSize at *
    omega

end VirtAddr

namespace VirtPage

def ofNat (n : Nat) : VirtPage := ⟨UInt64.ofNat n⟩

def toNat (p : VirtPage) : Nat := p.val.toNat

/-- The first byte of the page. The upper bits of a page number beyond the
address range are shifted out. -/
def start (p : VirtPage) : VirtAddr := ⟨p.val * 4096⟩

def addr? (p : VirtPage) (offset : Nat) : Option VirtAddr := p.start.add? offset

def add? (p : VirtPage) (n : Nat) : Option VirtPage := (wordAdd? p.val n).map mk

def sub? (p : VirtPage) (n : Nat) : Option VirtPage := (wordSub? p.val n).map mk

def plus (p : VirtPage) (n : Nat) : VirtPage := ⟨p.val + UInt64.ofNat n⟩

theorem add?_eq_some {p : VirtPage} {n : Nat} (h : p.toNat + n < wordBound) :
    p.add? n = some (p.plus n) := by
  have hsum : UInt64.ofNat (p.val.toNat + n) = p.val + UInt64.ofNat n := by
    rw [UInt64.ofNat_add, UInt64.ofNat_toNat]
  have hlt : p.val.toNat + n < wordBound := h
  rw [add?, wordAdd?, if_pos hlt, hsum, Option.map_some, plus]

def describe (p : VirtPage) : String := s!"VirtPageNum({hex p.toNat})"

instance : Ord VirtPage := ⟨fun p q => compare p.val q.val⟩

theorem compare_eq (p q : VirtPage) : compare p q = compare p.val q.val := rfl

instance : Std.TransOrd VirtPage where
  eq_swap {p q} := @Std.OrientedCmp.eq_swap UInt64 compare _ p.val q.val
  isLE_trans {p q r} := @Std.TransCmp.isLE_trans UInt64 compare _ p.val q.val r.val

instance : Std.LawfulEqOrd VirtPage where
  compare_self {p} := @Std.ReflCmp.compare_self UInt64 compare _ p.val
  eq_of_compare {p q} h :=
    congrArg mk (@Std.LawfulEqCmp.eq_of_compare UInt64 compare _ p.val q.val h)

end VirtPage

theorem VirtAddr.toNat_page (a : VirtAddr) : a.page.toNat = a.toNat / pageSize :=
  UInt64.toNat_div a.val 4096

namespace PhysPage

def ofNat (n : Nat) : PhysPage := ⟨UInt64.ofNat n⟩

def toNat (p : PhysPage) : Nat := p.val.toNat

def start (p : PhysPage) : UInt64 := p.val * 4096

def add? (p : PhysPage) (n : Nat) : Option PhysPage := (wordAdd? p.val n).map mk

def describe (p : PhysPage) : String := s!"PhysPageNum({p.toNat})"

end PhysPage

end Pager
