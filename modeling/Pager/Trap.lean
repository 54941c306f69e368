namespace Pager

/-- Which of the coming requests to a simulated device fail: the `i`th from now
does if `fires (seen + i)`. -/
structure Trap where
  fires : Nat → Bool := fun _ => false
  seen : Nat := 0

namespace Trap

instance : Inhabited Trap := ⟨{}⟩

/-- Lets `skip` requests pass and then fails the next `n`. -/
def after (skip n : Nat) : Trap := { fires := fun i => skip ≤ i && i < skip + n }

def ask (t : Trap) : Bool × Trap := (t.fires t.seen, { t with seen := t.seen + 1 })

def never : Trap := {}

theorem fires_after (skip n i : Nat) :
    (after skip n).fires i = true ↔ skip ≤ i ∧ i < skip + n := by
  simp [after]

theorem fires_never (i : Nat) : never.fires i = false := rfl

end Trap

end Pager
