import Pager.Step

namespace Pager.Step

variable {ε ε' σ τ α β : Type}

/-- An operation started in `s` ends with `Q` if it succeeds and with `E` if it
fails. -/
def Ends (x : EStateM ε σ α) (s : σ) (Q : α → σ → Prop) (E : ε → σ → Prop) : Prop :=
  match x s with
  | .ok a t => Q a t
  | .error e t => E e t

theorem Ends.mono {x : EStateM ε σ α} {s : σ} {Q Q' : α → σ → Prop} {E E' : ε → σ → Prop}
    (h : Ends x s Q E) (hQ : ∀ a t, Q a t → Q' a t) (hE : ∀ e t, E e t → E' e t) :
    Ends x s Q' E' := by
  unfold Ends at h ⊢
  split <;> simp_all only

theorem Ends.of_ok {x : EStateM ε σ α} {s t : σ} {a : α} {Q : α → σ → Prop} {E : ε → σ → Prop}
    (h : Ends x s Q E) (hx : x s = .ok a t) : Q a t := by
  simpa only [Ends, hx] using h

theorem Ends.of_error {x : EStateM ε σ α} {s t : σ} {e : ε} {Q : α → σ → Prop} {E : ε → σ → Prop}
    (h : Ends x s Q E) (hx : x s = .error e t) : E e t := by
  simpa only [Ends, hx] using h

theorem Ends.and {x : EStateM ε σ α} {s : σ} {Q Q' : α → σ → Prop} {E E' : ε → σ → Prop}
    (h : Ends x s Q E) (h' : Ends x s Q' E') :
    Ends x s (fun a t => Q a t ∧ Q' a t) (fun e t => E e t ∧ E' e t) := by
  unfold Ends at h h' ⊢
  split <;> simp_all only [and_self]

theorem Ends.exists_ok {x : EStateM ε σ α} {s : σ} {Q : α → σ → Prop}
    (h : Ends x s Q (fun _ _ => False)) : ∃ a t, x s = .ok a t ∧ Q a t := by
  cases hx : x s with
  | ok a t => exact ⟨a, t, rfl, h.of_ok hx⟩
  | error e t => exact (h.of_error hx).elim

theorem ends_self (x : EStateM ε σ α) (s : σ) :
    Ends x s (fun a t => x s = .ok a t) (fun e t => x s = .error e t) := by
  unfold Ends
  split <;> assumption

variable {s : σ} {Q : β → σ → Prop} {E : ε → σ → Prop}

theorem ends_of_ok {x : EStateM ε σ β} {t : σ} {b : β} (hx : x s = .ok b t) :
    Ends x s Q E ↔ Q b t := by
  rw [Ends, hx]

theorem ends_of_error {x : EStateM ε σ β} {t : σ} {e : ε} (hx : x s = .error e t) :
    Ends x s Q E ↔ E e t := by
  rw [Ends, hx]

@[simp]
theorem ends_pure (b : β) : Ends (pure b : EStateM ε σ β) s Q E ↔ Q b s := Iff.rfl

@[simp]
theorem ends_throw (e : ε) : Ends (throw e : EStateM ε σ β) s Q E ↔ E e s := Iff.rfl

@[simp]
theorem ends_bind (x : EStateM ε σ α) (f : α → EStateM ε σ β) :
    Ends (x >>= f) s Q E ↔ Ends x s (fun a t => Ends (f a) t Q E) E := by
  simp only [Ends, bind, EStateM.bind]
  cases x s <;> rfl

@[simp]
theorem ends_map (x : EStateM ε σ α) (f : α → β) :
    Ends (f <$> x) s Q E ↔ Ends x s (fun a t => Q (f a) t) E := by
  simp only [Ends, Functor.map, EStateM.map]
  cases x s <;> rfl

@[simp]
theorem ends_discard (x : EStateM ε σ α) {Q : Unit → σ → Prop} :
    Ends (discard x) s Q E ↔ Ends x s (fun _ t => Q () t) E :=
  ends_map x (fun _ => ())

@[simp]
theorem ends_get {Q : σ → σ → Prop} : Ends (get : EStateM ε σ σ) s Q E ↔ Q s s := Iff.rfl

@[simp]
theorem ends_set (t : σ) {Q : PUnit → σ → Prop} :
    Ends (set t : EStateM ε σ PUnit) s Q E ↔ Q ⟨⟩ t := Iff.rfl

@[simp]
theorem ends_modify (f : σ → σ) {Q : PUnit → σ → Prop} :
    Ends (modify f : EStateM ε σ PUnit) s Q E ↔ Q ⟨⟩ (f s) := Iff.rfl

@[simp]
theorem ends_modifyGet (f : σ → β × σ) :
    Ends (modifyGet f : EStateM ε σ β) s Q E ↔ Q (f s).1 (f s).2 := Iff.rfl

@[simp]
theorem ends_zoom (get : σ → τ) (set : τ → σ → σ) (wrap : ε' → ε) (x : EStateM ε' τ β) :
    Ends (zoom get set wrap x) s Q E ↔
      Ends x (get s) (fun b t => Q b (set t s)) (fun e t => E (wrap e) (set t s)) := by
  simp only [Ends, zoom]
  cases x (get s) <;> rfl

variable {E : Failure → σ → Prop}

@[simp]
theorem ends_fail (e : Errno) : Ends (fail e : Step σ β) s Q E ↔ E (.errno e) s := Iff.rfl

@[simp]
theorem ends_halt (p : Panic) : Ends (halt p : Step σ β) s Q E ↔ E (.panic p) s := Iff.rfl

@[simp]
theorem ends_require (c : Bool) (e : Errno) {Q : Unit → σ → Prop} :
    Ends (require c e) s Q E ↔ (c = true → Q () s) ∧ (c = false → E (.errno e) s) := by
  cases c <;> simp [require]

@[simp]
theorem ends_demand (c : Bool) (p : Panic) {Q : Unit → σ → Prop} :
    Ends (demand c p) s Q E ↔ (c = true → Q () s) ∧ (c = false → E (.panic p) s) := by
  cases c <;> simp [demand]

@[simp]
theorem ends_ofOption (p : Panic) (o : Option β) :
    Ends (ofOption p o : Step σ β) s Q E ↔
      (∀ b, o = some b → Q b s) ∧ (o = none → E (.panic p) s) := by
  cases o <;> simp [ofOption]

@[simp]
theorem ends_ofExcept (r : Except Panic β) :
    Ends (ofExcept r : Step σ β) s Q E ↔
      (∀ b, r = .ok b → Q b s) ∧ (∀ p, r = .error p → E (.panic p) s) := by
  cases r <;> simp [ofExcept]

theorem ends_handle (x : Step σ β) (h : Errno → Step σ β) :
    Ends (handle x h) s Q E ↔
      Ends x s Q (fun f t => match f with
        | .errno e => Ends (h e) t Q E
        | .panic p => E (.panic p) t) := by
  simp only [Ends, handle]
  rcases x s with _ | ⟨_ | _, _⟩ <;> rfl

@[simp]
theorem ends_ensuring (x : Step σ β) (y : Step σ Unit) :
    Ends (ensuring x y) s Q E ↔
      Ends x s (fun b t => Ends y t (fun _ u => Q b u) E)
        (fun f t => Ends y t (fun _ u => E f u) E) := by
  simp only [Ends, ensuring, bind, EStateM.bind]
  rcases x s with ⟨b, t⟩ | ⟨e, t⟩ <;> cases h : y t <;> simp only [h] <;> rfl

@[simp]
theorem ends_onFailure (x : Step σ β) (y : Step σ Unit) :
    Ends (onFailure x y) s Q E ↔
      Ends x s Q (fun f t => Ends y t (fun _ u => E f u) E) := by
  simp only [Ends, onFailure, bind, EStateM.bind]
  rcases x s with ⟨b, t⟩ | ⟨e, t⟩
  · rfl
  · cases h : y t with
    | ok =>
        simp only [h]
        rfl
    | error => simp only [h]

end Pager.Step
