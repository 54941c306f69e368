import Std.Data.ExtTreeMap

namespace Pager

/-- A value for every number, all but finitely many of them the default one. -/
structure Store (α : Type) [Inhabited α] where
  entries : Std.ExtTreeMap Nat α := {}

namespace Store

variable {α : Type} [Inhabited α]

instance : Inhabited (Store α) := ⟨{}⟩

def get (s : Store α) (i : Nat) : α := s.entries[i]?.getD default

def set (s : Store α) (i : Nat) (a : α) : Store α := ⟨s.entries.insert i a⟩

def modify (s : Store α) (i : Nat) (f : α → α) : Store α := s.set i (f (s.get i))

def ofList (as : List α) : Store α :=
  as.zipIdx.foldl (fun s p => s.set p.2 p.1) {}

theorem get_set (s : Store α) (i j : Nat) (a : α) :
    (s.set i a).get j = if i = j then a else s.get j := by
  by_cases h : i = j <;> simp [get, set, Std.ExtTreeMap.getElem?_insert, h]

@[simp]
theorem get_set_self (s : Store α) (i : Nat) (a : α) : (s.set i a).get i = a := by
  simp [get_set]

theorem get_set_of_ne (s : Store α) {i j : Nat} (h : i ≠ j) (a : α) :
    (s.set i a).get j = s.get j := by
  simp [get_set, h]

@[simp]
theorem get_empty (i : Nat) : ({} : Store α).get i = default := by
  simp [get]

end Store

end Pager
