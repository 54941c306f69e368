import Pager.Panic

namespace Pager

/-- An operation on a state of type `σ`. A failure keeps the state that it left
behind, since what was done before it stays done. -/
abbrev Step (σ : Type) := EStateM Failure σ

namespace Step

variable {ε ε' σ τ α : Type}

def fail (e : Errno) : Step σ α := throw (.errno e)

def halt (p : Panic) : Step σ α := throw (.panic p)

def require (c : Bool) (e : Errno) : Step σ Unit := if c then pure () else fail e

def demand (c : Bool) (p : Panic) : Step σ Unit := if c then pure () else halt p

def ofOption (p : Panic) : Option α → Step σ α
  | some a => pure a
  | none => halt p

def ofExcept : Except Panic α → Step σ α
  | .ok a => pure a
  | .error p => halt p

def zoom (get : σ → τ) (set : τ → σ → σ) (wrap : ε → ε') (x : EStateM ε τ α) :
    EStateM ε' σ α := fun s =>
  match x (get s) with
  | .ok a t => .ok a (set t s)
  | .error e t => .error (wrap e) (set t s)

/-- Answers an error with `h`. A panic is not answered. -/
def handle (x : Step σ α) (h : Errno → Step σ α) : Step σ α := fun s =>
  match x s with
  | .ok a s => .ok a s
  | .error (.errno e) s => h e s
  | .error (.panic p) s => .error (.panic p) s

/-- Runs `y` after `x`, whether or not `x` succeeds, and reports as `x` does. -/
def ensuring (x : Step σ α) (y : Step σ Unit) : Step σ α := fun s =>
  match x s with
  | .ok a s => (do y; pure a : Step σ α) s
  | .error e s => (do y; throw e : Step σ α) s

/-- Runs `y` if `x` fails, and then reports that failure. -/
def onFailure (x : Step σ α) (y : Step σ Unit) : Step σ α := fun s =>
  match x s with
  | .ok a s => .ok a s
  | .error e s => (do y; throw e : Step σ α) s

end Step

end Pager
