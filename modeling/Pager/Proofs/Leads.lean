import Pager.Proofs.Ends
import Mathlib.Order.Defs.Unbundled

namespace Pager.Step

variable {ε ε' σ τ α β : Type} {R R' : σ → σ → Prop}

/-- Wherever the operation is started and however it ends, it has gone along `R`. -/
def Leads (R : σ → σ → Prop) (x : EStateM ε σ α) : Prop :=
  ∀ s, Ends x s (fun _ t => R s t) (fun _ t => R s t)

theorem Leads.mono {x : EStateM ε σ α} (h : Leads R x) (hR : ∀ s t, R s t → R' s t) :
    Leads R' x :=
  fun s => (h s).mono (fun _ t => hR s t) fun _ t => hR s t

theorem leads_modify {f : σ → σ} (h : ∀ s, R s (f s)) :
    Leads R (modify f : EStateM ε σ PUnit) := fun s => h s

theorem leads_zoom {get : σ → τ} {set : τ → σ → σ} {wrap : ε' → ε} {T : τ → τ → Prop}
    {x : EStateM ε' τ α} (hx : Leads T x) (h : ∀ s t, T (get s) t → R s (set t s)) :
    Leads R (zoom get set wrap x) := fun s =>
  (ends_zoom get set wrap x).mpr ((hx (get s)).mono (fun _ t => h s t) fun _ t => h s t)

theorem Leads.zoom {get : σ → τ} {set : τ → σ → σ} {wrap : ε' → ε} (h : ∀ s t, R s (set t s))
    (x : EStateM ε' τ α) : Leads R (zoom get set wrap x) :=
  leads_zoom (T := fun _ _ => True)
    (fun _ => (ends_self x _).mono (fun _ _ _ => trivial) fun _ _ _ => trivial) fun s t _ => h s t

theorem Leads.discard {x : EStateM ε σ α} (hx : Leads R x) : Leads R (discard x) := fun s =>
  (ends_discard x).mpr (hx s)

section Reflexive

variable [Std.Refl R]

theorem leads_pure (a : α) : Leads R (pure a : EStateM ε σ α) := fun s => refl_of R s

theorem leads_get : Leads R (get : EStateM ε σ σ) := fun s => refl_of R s

theorem leads_throw (e : ε) : Leads R (throw e : EStateM ε σ α) := fun s => refl_of R s

theorem leads_fail (e : Errno) : Leads R (fail e : Step σ α) := fun s => refl_of R s

theorem leads_halt (p : Panic) : Leads R (halt p : Step σ α) := fun s => refl_of R s

theorem leads_require (c : Bool) (e : Errno) : Leads R (require c e : Step σ Unit) := by
  cases c
  · exact leads_fail e
  · exact leads_pure ()

theorem leads_demand (c : Bool) (p : Panic) : Leads R (demand c p : Step σ Unit) := by
  cases c
  · exact leads_halt p
  · exact leads_pure ()

theorem leads_ofOption (p : Panic) (o : Option α) : Leads R (ofOption p o : Step σ α) := by
  cases o
  · exact leads_halt p
  · exact leads_pure _

theorem leads_ofExcept (r : Except Panic α) : Leads R (ofExcept r : Step σ α) := by
  cases r
  · exact leads_halt _
  · exact leads_pure _

end Reflexive

section Transitive

variable [IsTrans σ R]

theorem Leads.bind {x : EStateM ε σ α} {f : α → EStateM ε σ β} (hx : Leads R x)
    (hf : ∀ a, Leads R (f a)) : Leads R (x >>= f) := fun s =>
  (ends_bind x f).mpr ((hx s).mono
    (fun a t ht => (hf a t).mono (fun _ _ => trans_of R ht) fun _ _ => trans_of R ht)
    fun _ _ ht => ht)

theorem Leads.handle {x : Step σ α} {h : Errno → Step σ α} (hx : Leads R x)
    (hh : ∀ e, Leads R (h e)) : Leads R (handle x h) := by
  intro s
  rw [ends_handle]
  refine (hx s).mono (fun _ _ ht => ht) ?_
  rintro (e | p) t ht
  · exact (hh e t).mono (fun _ _ => trans_of R ht) fun _ _ => trans_of R ht
  · exact ht

theorem Leads.onFailure {x : Step σ α} {y : Step σ Unit} (hx : Leads R x) (hy : Leads R y) :
    Leads R (onFailure x y) := by
  intro s
  rw [ends_onFailure]
  exact (hx s).mono (fun _ _ ht => ht) fun _ t ht =>
    (hy t).mono (fun _ _ => trans_of R ht) fun _ _ => trans_of R ht

theorem Leads.ensuring {x : Step σ α} {y : Step σ Unit} (hx : Leads R x) (hy : Leads R y) :
    Leads R (ensuring x y) := by
  intro s
  rw [ends_ensuring]
  exact (hx s).mono
    (fun _ t ht => (hy t).mono (fun _ _ => trans_of R ht) fun _ _ => trans_of R ht)
    fun _ t ht => (hy t).mono (fun _ _ => trans_of R ht) fun _ _ => trans_of R ht

end Transitive

end Pager.Step
