import Pager.Proofs.Ends
import Pager.Machine
import Mathlib.Data.List.Nodup
import Mathlib.Logic.Function.Basic

namespace Pager.Ram

variable {r : Ram} {p : PhysPage}

def InRange (capacity : Nat) (p : PhysPage) : Prop :=
  firstPage ≤ p.toNat ∧ p.toNat < firstPage + capacity

def bytes (r : Ram) (p : PhysPage) : PageBytes :=
  if firstPage ≤ p.toNat then r.pages.getD (p.toNat - firstPage) (Bytes.zero pageSize)
  else Bytes.zero pageSize

def store (r : Ram) (p : PhysPage) (b : PageBytes) : Ram :=
  { r with pages := r.pages.setIfInBounds (p.toNat - firstPage) b }

theorem index_eq (h : InRange r.capacity p) : r.index p = .ok (p.toNat - firstPage) := by
  rw [index, if_neg (Nat.not_lt.mpr h.1), if_pos (by have := h.1; have := h.2; omega)]

theorem bytes_eq (h : InRange r.capacity p) :
    r.bytes p = r.pages.getD (p.toNat - firstPage) (Bytes.zero pageSize) :=
  if_pos h.1

theorem read_eq (h : InRange r.capacity p) : r.read p = .ok (r.bytes p) := by
  rw [bytes_eq h]
  simp only [read, index_eq h, Except.map]

theorem write_eq (h : InRange r.capacity p) (b : PageBytes) : r.write p b = .ok (r.store p b) := by
  simp only [write, index_eq h, Except.map, store]

@[simp]
theorem free_store (r : Ram) (p : PhysPage) (b : PageBytes) : (r.store p b).free = r.free := by
  rw [store]

@[simp]
theorem capacity_store (r : Ram) (p : PhysPage) (b : PageBytes) :
    (r.store p b).capacity = r.capacity := by
  simp [store, capacity]

theorem bytes_store (h : InRange r.capacity p) (b : PageBytes) :
    (r.store p b).bytes = Function.update r.bytes p b := by
  funext q
  have hp : p.toNat - firstPage < r.pages.size := by
    have := h.1
    have := h.2
    unfold capacity at this
    omega
  by_cases hq : q = p
  · subst hq
    simp [bytes, store, h.1, hp]
  · rw [Function.update_of_ne hq]
    by_cases hf : firstPage ≤ q.toNat
    · have hne : p.toNat - firstPage ≠ q.toNat - firstPage := by
        intro he
        have hn : p.val.toNat = q.val.toNat := by
          have := h.1
          simp only [PhysPage.toNat] at *
          omega
        exact hq (congrArg PhysPage.mk (UInt64.toNat_inj.mp hn.symm))
      simp only [bytes, store, if_pos hf, Array.getD_eq_getD_getElem?,
        Array.getElem?_setIfInBounds_ne hne]
    · simp only [bytes, if_neg hf]

def all (capacity : Nat) : List PhysPage :=
  (List.range capacity).map (fun i => PhysPage.ofNat (firstPage + i))

theorem toNat_ofNat {n : Nat} (h : n < wordBound) : (PhysPage.ofNat n).toNat = n :=
  UInt64.toNat_ofNat_of_lt' h

theorem inRange_of_mem_all {capacity : Nat} (hc : firstPage + capacity ≤ wordBound)
    (h : p ∈ all capacity) : InRange capacity p := by
  obtain ⟨i, hi, rfl⟩ := List.mem_map.mp h
  rw [List.mem_range] at hi
  rw [InRange, toNat_ofNat (by omega)]
  omega

theorem nodup_all {capacity : Nat} (hc : firstPage + capacity ≤ wordBound) :
    (all capacity).Nodup := by
  refine List.Nodup.map_on ?_ List.nodup_range
  intro i hi j hj h
  rw [List.mem_range] at hi hj
  have := congrArg PhysPage.toNat h
  rw [toNat_ofNat (by omega), toNat_ofNat (by omega)] at this
  omega

end Pager.Ram

namespace Pager.Machine

open Step

variable {α : Type} {m : Machine} {p : PhysPage} {b : PageBytes}

def withRam (m : Machine) (r : Ram) : Machine := { m with ram := r }

theorem ends_readFrame (h : Ram.InRange m.ram.capacity p) {Q : PageBytes → Machine → Prop}
    {E : Failure → Machine → Prop} : Ends (readFrame p) m Q E ↔ Q (m.ram.bytes p) m := by
  simp [readFrame, Ram.read_eq h]

theorem ends_writeFrame (h : Ram.InRange m.ram.capacity p) {Q : Unit → Machine → Prop}
    {E : Failure → Machine → Prop} :
    Ends (writeFrame p b) m Q E ↔ Q () (m.withRam (m.ram.store p b)) := by
  simp [writeFrame, Ram.write_eq h, withRam]

theorem Ends.inFrame {x : Step (Machine × PageBytes) Unit} (h : Ram.InRange m.ram.capacity p)
    {Q : Unit → Machine → Prop} {E : Failure → Machine → Prop}
    (hx : Ends x (m, m.ram.bytes p)
      (fun _ t => t.1.ram = m.ram ∧ Q () (t.1.withRam (m.ram.store p t.2)))
      (fun e t => t.1.ram = m.ram ∧ E e (t.1.withRam (m.ram.store p t.2)))) :
    Ends (inFrame p x) m Q E := by
  have hread : readFrame p m = .ok (m.ram.bytes p) m := by
    change ofExcept (m.ram.read p) m = _
    rw [Ram.read_eq h]
    rfl
  cases hxm : x (m, m.ram.bytes p) with
  | ok u t =>
      obtain ⟨hr, hQ⟩ := hx.of_ok hxm
      have hw := (ends_writeFrame (b := t.2) (E := E) (hr ▸ h)).mpr (hr ▸ hQ)
      simpa only [Ends, Machine.inFrame, bind, EStateM.bind, hread, hxm] using hw
  | error e t =>
      obtain ⟨hr, hE⟩ := hx.of_error hxm
      have hw : Ends (writeFrame p t.2 >>= fun _ => throw e : Step Machine Unit) t.1 Q E := by
        rw [ends_bind, ends_writeFrame (hr ▸ h), ends_throw, hr]
        exact hE
      simpa only [Ends, Machine.inFrame, bind, EStateM.bind, hread, hxm] using hw

end Pager.Machine
