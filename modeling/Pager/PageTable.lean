import Std.Data.ExtTreeMap
import Pager.BitNames

namespace Pager

inductive Flag
  | valid
  | readable
  | writable
  | user
  | accessed
  | dirty
deriving DecidableEq, Inhabited

namespace Flag

def all : List Flag := [valid, readable, writable, user, accessed, dirty]

def bit : Flag → Nat
  | valid => 0
  | readable => 1
  | writable => 2
  | user => 4
  | accessed => 6
  | dirty => 7

def name : Flag → String
  | valid => "V"
  | readable => "R"
  | writable => "W"
  | user => "U"
  | accessed => "A"
  | dirty => "D"

def mask (f : Flag) : BitVec 64 := BitVec.twoPow 64 f.bit

def union (fs : List Flag) : BitVec 64 := fs.foldl (fun w f => w ||| f.mask) 0#64

theorem bit_injective {f g : Flag} (h : f.bit = g.bit) : f = g := by
  cases f <;> cases g <;> first | rfl | exact absurd h (by decide)

theorem getLsbD_mask (f : Flag) (i : Nat) : f.mask.getLsbD i = decide (i = f.bit) := by
  rw [mask, BitVec.getLsbD_twoPow]
  have : f.bit < 64 := by cases f <;> decide
  by_cases h : f.bit = i <;> simp_all [eq_comm]

end Flag

/-- A mapping packed into a word: flags in the low ten bits, above them 44 bits
of the physical page. What a larger page number has beyond is lost. -/
structure Entry where
  bits : BitVec 64
deriving DecidableEq, Inhabited

namespace Entry

abbrev pageBound : Nat := 0x100000000000

def pack (p : PhysPage) (flags : BitVec 64) : Entry := ⟨p.val.toBitVec <<< 10 ||| flags⟩

def page (e : Entry) : PhysPage := ⟨⟨e.bits >>> 10 &&& 0xfffffffffff#64⟩⟩

def flags (e : Entry) : BitVec 64 := e.bits &&& Flag.union Flag.all

def has (e : Entry) (f : Flag) : Bool := e.bits.getLsbD f.bit

def set (e : Entry) (f : Flag) (on : Bool) : Entry :=
  pack e.page (if on then e.flags ||| f.mask else e.flags &&& ~~~f.mask)

def fresh (p : PhysPage) (writable : Bool) : Entry :=
  pack p (Flag.union ([.valid, .readable, .user] ++ if writable then [.writable] else []))

def describeFlags (e : Entry) : String :=
  describeBits "PTEFlags" (Flag.all.map (fun f => (f.bit, f.name))) e.flags.toNat

theorem page_pack {p : PhysPage} (hp : p.toNat < pageBound) {w : BitVec 64}
    (hw : w.toNat < 1024) : (pack p w).page = p := by
  obtain ⟨⟨p⟩⟩ := p
  change p.toNat < 0x100000000000 at hp
  have : (p <<< 10 ||| w) >>> 10 &&& 0xfffffffffff#64 = p := by
    apply BitVec.eq_of_toNat_eq
    simp only [BitVec.toNat_and, BitVec.toNat_ushiftRight, BitVec.toNat_or, BitVec.toNat_shiftLeft]
    rw [Nat.mod_eq_of_lt (by rw [Nat.shiftLeft_eq]; omega), ← Nat.shiftLeft_add_eq_or_of_lt hw,
      Nat.shiftRight_eq_div_pow, Nat.shiftLeft_eq, Nat.mul_comm,
      Nat.mul_add_div (Nat.two_pow_pos 10), Nat.div_eq_of_lt hw, Nat.add_zero]
    exact @Nat.and_two_pow_sub_one_of_lt_two_pow 44 p.toNat hp
  simp only [page, pack, this]

theorem has_pack (p : PhysPage) (w : BitVec 64) (f : Flag) :
    (pack p w).has f = w.getLsbD f.bit := by
  have : f.bit < 10 := by cases f <;> decide
  simp [pack, has, this]

theorem getLsbD_flags (e : Entry) (f : Flag) : e.flags.getLsbD f.bit = e.has f := by
  have : (Flag.union Flag.all).getLsbD f.bit = true := by cases f <;> decide
  simp [flags, has, this]

theorem has_set (e : Entry) (f g : Flag) (on : Bool) :
    (e.set f on).has g = if f = g then on else e.has g := by
  have hg : g.bit < 64 := by cases g <;> decide
  have hb : g.bit = f.bit ↔ f = g := ⟨fun h => (Flag.bit_injective h).symm, fun h => h ▸ rfl⟩
  rw [set, has_pack]
  cases on with
  | false =>
      simp only [Bool.false_eq_true, if_false, BitVec.getLsbD_and, BitVec.getLsbD_not,
        getLsbD_flags, Flag.getLsbD_mask, hg, hb, decide_true, Bool.true_and]
      by_cases h : f = g <;> simp [h]
  | true =>
      simp only [if_true, BitVec.getLsbD_or, getLsbD_flags, Flag.getLsbD_mask, hb]
      by_cases h : f = g <;> simp [h]

theorem toNat_flags_lt (e : Entry) : e.flags.toNat < 1024 := by
  rw [flags, BitVec.toNat_and]
  exact Nat.lt_of_le_of_lt Nat.and_le_right (by decide)

theorem page_lt (e : Entry) : e.page.toNat < pageBound := by
  show (e.bits >>> 10 &&& 0xfffffffffff#64).toNat < pageBound
  rw [BitVec.toNat_and]
  exact Nat.lt_of_le_of_lt Nat.and_le_right (by decide)

theorem page_set (e : Entry) (f : Flag) (on : Bool) : (e.set f on).page = e.page := by
  refine page_pack e.page_lt ?_
  have := e.toNat_flags_lt
  cases on with
  | false =>
      simp only [Bool.false_eq_true, if_false, BitVec.toNat_and]
      exact Nat.lt_of_le_of_lt Nat.and_le_left this
  | true =>
      simp only [if_true, BitVec.toNat_or]
      exact @Nat.or_lt_two_pow e.flags.toNat f.mask.toNat 10 this (by cases f <;> decide)

theorem flags_pack (p : PhysPage) (w : BitVec 64) :
    (pack p w).flags = w &&& Flag.union Flag.all := by
  have hall (i : Nat) (hi : 10 ≤ i) : (Flag.union Flag.all).getLsbD i = false := by
    have : (Flag.union Flag.all).toNat < 2 ^ 10 := by decide
    exact Nat.testBit_lt_two_pow (Nat.lt_of_lt_of_le this (Nat.pow_le_pow_right (by decide) hi))
  apply BitVec.eq_of_getLsbD_eq
  intro i _
  simp only [flags, pack, BitVec.getLsbD_and, BitVec.getLsbD_or, BitVec.getLsbD_shiftLeft]
  by_cases hi : i < 10
  · simp [hi]
  · simp [hall i (by omega)]

theorem set_set (e : Entry) (f : Flag) (on : Bool) : (e.set f on).set f on = e.set f on := by
  rw [set, page_set]
  simp only [set, flags_pack]
  congr 1
  apply BitVec.eq_of_getLsbD_eq
  intro i hi
  cases on <;> simp [flags, hi] <;> grind

theorem page_fresh {p : PhysPage} (hp : p.toNat < pageBound) (w : Bool) : (fresh p w).page = p :=
  page_pack hp (by cases w <;> decide)

theorem has_fresh (p : PhysPage) (w : Bool) (f : Flag) :
    (fresh p w).has f = match f with
      | .accessed | .dirty => false
      | .writable => w
      | _ => true := by
  rw [fresh, has_pack]
  cases w <;> cases f <;> decide

end Entry

structure PageTable where
  entries : Std.ExtTreeMap VirtPage Entry := {}

namespace PageTable

instance : Inhabited PageTable := ⟨{}⟩

def get? (t : PageTable) (v : VirtPage) : Option Entry := t.entries[v]?

def install (t : PageTable) (v : VirtPage) (p : PhysPage) (writable : Bool) : PageTable :=
  ⟨t.entries.insert v (.fresh p writable)⟩

def clear (t : PageTable) (v : VirtPage) : PageTable := ⟨t.entries.erase v⟩

def has (t : PageTable) (v : VirtPage) (f : Flag) : Bool := (t.get? v).any (fun e => e.has f)

def set (t : PageTable) (v : VirtPage) (f : Flag) (on : Bool) : PageTable :=
  match t.get? v with
  | none => t
  | some e => ⟨t.entries.insert v (e.set f on)⟩

def translate (t : PageTable) (v : VirtPage) : Option PhysPage := (t.get? v).map Entry.page

def size (t : PageTable) : Nat := t.entries.size

theorem get?_install (t : PageTable) (v w : VirtPage) (p : PhysPage) (writable : Bool) :
    (t.install v p writable).get? w = if v = w then some (.fresh p writable) else t.get? w := by
  simp [get?, install, Std.ExtTreeMap.getElem?_insert]

theorem get?_clear (t : PageTable) (v w : VirtPage) :
    (t.clear v).get? w = if v = w then none else t.get? w := by
  simp [get?, clear, Std.ExtTreeMap.getElem?_erase]

theorem get?_set (t : PageTable) (v w : VirtPage) (f : Flag) (on : Bool) :
    (t.set v f on).get? w = if v = w then (t.get? v).map (fun e => e.set f on) else t.get? w := by
  unfold set
  split
  next h => split <;> simp_all
  next e h => simp [h]; simp [get?, Std.ExtTreeMap.getElem?_insert]

end PageTable

end Pager
