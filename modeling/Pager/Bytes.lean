import Pager.Geometry

namespace Pager

abbrev PageBytes := Vector UInt8 pageSize

abbrev SectorBytes := Vector UInt8 sectorSize

namespace Bytes

variable {n : Nat}

def zero (n : Nat) : Vector UInt8 n := Vector.replicate n 0

/-- Overwrites the bytes from `i` on. What would come to lie past the end is
dropped. -/
def splice (v : Vector UInt8 n) (i : Nat) : List UInt8 → Vector UInt8 n
  | [] => v
  | b :: bs => splice (v.setIfInBounds i b) (i + 1) bs

/-- At most `len` bytes from `i` on, fewer where the end is nearer. -/
def slice (v : Vector UInt8 n) (i len : Nat) : List UInt8 :=
  List.ofFn fun j : Fin (min (i + len) n - i) => v.get ⟨i + j, by omega⟩

def ofList (n : Nat) (bs : List UInt8) : Vector UInt8 n := splice (zero n) 0 bs

def clearFrom (v : Vector UInt8 n) (i : Nat) : Vector UInt8 n :=
  splice v i (List.replicate (n - i) 0)

theorem getElem?_splice (v : Vector UInt8 n) (i : Nat) (bs : List UInt8) (j : Nat) :
    (splice v i bs)[j]? =
      if i ≤ j ∧ j < i + bs.length ∧ j < n then bs[j - i]? else v[j]? := by
  induction bs generalizing v i with
  | nil =>
      rw [splice, if_neg]
      simp only [List.length_nil]
      omega
  | cons b bs ih =>
      rw [splice, ih, Vector.getElem?_setIfInBounds]
      simp only [List.length_cons]
      by_cases hj : i = j
      · subst hj
        by_cases hn : i < n
        · rw [if_neg (by omega), if_pos rfl, if_pos hn, if_pos (by omega)]
          simp
        · rw [if_neg (by omega), if_pos rfl, if_neg hn, if_neg (by omega)]
          exact (Vector.getElem?_eq_none (by omega)).symm
      · by_cases h : i + 1 ≤ j ∧ j < i + 1 + bs.length ∧ j < n
        · rw [if_pos h, if_pos (by omega), show j - i = j - (i + 1) + 1 by omega,
            List.getElem?_cons_succ]
        · rw [if_neg h, if_neg hj, if_neg (by omega)]

theorem length_slice (v : Vector UInt8 n) (i len : Nat) :
    (slice v i len).length = min (i + len) n - i := List.length_ofFn

theorem getElem?_slice (v : Vector UInt8 n) (i len j : Nat) :
    (slice v i len)[j]? = if j < len then v[i + j]? else none := by
  rw [slice, List.getElem?_ofFn]
  by_cases h : j < min (i + len) n - i
  · rw [if_pos (by omega), dif_pos h]
    exact (Vector.getElem?_eq_getElem (by omega)).symm
  · rw [dif_neg h]
    split
    · exact (Vector.getElem?_eq_none (by omega)).symm
    · rfl

theorem slice_splice (v : Vector UInt8 n) {i : Nat} {bs : List UInt8} (h : i + bs.length ≤ n) :
    slice (splice v i bs) i bs.length = bs := by
  apply List.ext_getElem?
  intro j
  rw [getElem?_slice]
  split
  next hj => rw [getElem?_splice, if_pos (by omega), Nat.add_sub_cancel_left]
  next hj => exact (List.getElem?_eq_none (Nat.not_lt.mp hj)).symm

end Bytes

end Pager
