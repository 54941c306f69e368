import Pager.FrameTable
import Mathlib.Logic.Function.Basic
import Mathlib.Data.List.Nodup

namespace Pager.FrameTable

variable {t : FrameTable} {f h : FrameId} {id : PageId} {p : PhysPage}

def owner? (t : FrameTable) (f : FrameId) : Option PageId := (t.get? f).bind Frame.owner

def phys? (t : FrameTable) (f : FrameId) : Option PhysPage := (t.get? f).map Frame.page

def Pinned (t : FrameTable) (f : FrameId) : Prop := ∃ fr, t.get? f = some fr ∧ fr.pinned = true

def physPages (t : FrameTable) : List PhysPage := t.frames.toList.map Frame.page

theorem get?_eq_none_of_size_le (h : t.size ≤ f.index) : t.get? f = none :=
  Array.getElem?_eq_none h

theorem mem_physPages : p ∈ t.physPages ↔ ∃ f, t.phys? f = some p := by
  simp only [physPages, phys?, List.mem_map, Array.mem_toList_iff, Option.map_eq_some_iff,
    Array.mem_iff_getElem?, get?]
  constructor
  · rintro ⟨fr, ⟨i, hi⟩, hp⟩
    exact ⟨⟨i⟩, fr, hi, hp⟩
  · rintro ⟨f, fr, hf, hp⟩
    exact ⟨fr, ⟨f.index, hf⟩, hp⟩

theorem phys?_inj (hn : t.physPages.Nodup) (hf : t.phys? f = some p) (hh : t.phys? h = some p) :
    f = h := by
  obtain ⟨i⟩ := f
  obtain ⟨j⟩ := h
  simp only [phys?, get?, Option.map_eq_some_iff] at hf hh
  obtain ⟨a, ha, hap⟩ := hf
  obtain ⟨b, hb, hbp⟩ := hh
  obtain ⟨hi, rfl⟩ := Array.getElem?_eq_some_iff.mp ha
  obtain ⟨hj, rfl⟩ := Array.getElem?_eq_some_iff.mp hb
  have hij : i = j := by
    refine (List.getElem?_inj (by simpa [physPages] using hi) hn).mp ?_
    simpa [physPages, ha, hb] using hap.trans hbp.symm
  rw [hij]

theorem exists_phys?_of_owner? (ho : t.owner? f = some id) : ∃ p, t.phys? f = some p := by
  obtain ⟨fr, hf, -⟩ := Option.bind_eq_some_iff.mp ho
  exact ⟨fr.page, by rw [phys?, hf, Option.map_some]⟩

theorem modify_modify (g k : Frame → Frame) :
    (t.modify f g).modify f k = t.modify f (fun fr => k (g fr)) := by
  obtain ⟨frames, hand⟩ := t
  simp only [modify, mk.injEq, and_true]
  apply Array.ext (by simp)
  intro i _ _
  simp only [Array.getElem_modify]
  split <;> rfl

theorem modify_eq_self {g : Frame → Frame} (hg : ∀ fr, t.get? f = some fr → g fr = fr) :
    t.modify f g = t := by
  obtain ⟨frames, hand⟩ := t
  simp only [modify, mk.injEq, and_true]
  apply Array.ext (by simp)
  intro i hi _
  simp only [Array.size_modify] at hi
  simp only [Array.getElem_modify]
  split
  next he => exact hg _ (by subst he; exact Array.getElem?_eq_getElem hi)
  next => rfl

theorem phys?_modify {g : Frame → Frame} (hg : ∀ fr, (g fr).page = fr.page) :
    (t.modify f g).phys? = t.phys? := by
  funext k
  rw [phys?, get?_modify, phys?]
  split
  · rw [Option.map_map]
    exact congrArg (Option.map · (t.get? k)) (funext hg)
  · rfl

theorem physPages_modify {g : Frame → Frame} (hg : ∀ fr, (g fr).page = fr.page) :
    (t.modify f g).physPages = t.physPages := by
  apply List.ext_getElem (by simp [physPages, modify])
  intro i hi _
  simp only [physPages, modify, List.getElem_map, Array.getElem_toList, Array.getElem_modify]
  split
  · exact hg _
  · rfl

theorem owner?_modify {g : Frame → Frame} (hg : ∀ fr, (g fr).owner = fr.owner) :
    (t.modify f g).owner? = t.owner? := by
  funext k
  rw [owner?, get?_modify, owner?]
  split
  · rw [Option.bind_map]
    exact congrArg (Option.bind (t.get? k)) (funext hg)
  · rfl

@[simp]
theorem phys?_bind : (t.bind f id).phys? = t.phys? := phys?_modify fun _ => rfl

@[simp]
theorem phys?_unbind : (t.unbind f).phys? = t.phys? := phys?_modify fun _ => rfl

@[simp]
theorem phys?_pin : (t.pin f).phys? = t.phys? := phys?_modify fun _ => rfl

@[simp]
theorem phys?_unpin : (t.unpin f).phys? = t.phys? := phys?_modify fun _ => rfl

@[simp]
theorem owner?_pin : (t.pin f).owner? = t.owner? := owner?_modify fun _ => rfl

@[simp]
theorem owner?_unpin : (t.unpin f).owner? = t.owner? := owner?_modify fun _ => rfl

theorem owner?_bind (hp : t.phys? f = some p) :
    (t.bind f id).owner? = Function.update t.owner? f (some id) := by
  obtain ⟨fr, hf, -⟩ := Option.map_eq_some_iff.mp hp
  funext k
  rw [owner?, bind, get?_modify, Function.update_apply]
  by_cases hk : f = k
  · subst hk
    simp [hf]
  · rw [if_neg hk, if_neg (Ne.symm hk)]
    rfl

@[simp]
theorem owner?_unbind : (t.unbind f).owner? = Function.update t.owner? f none := by
  funext k
  rw [owner?, unbind, get?_modify, Function.update_apply]
  by_cases hk : f = k
  · subst hk
    rw [if_pos rfl, if_pos rfl, Option.bind_map]
    cases t.get? f <;> rfl
  · rw [if_neg hk, if_neg (Ne.symm hk)]
    rfl

theorem unbind_eq_self (h : t.owner? f = none) : t.unbind f = t := by
  apply modify_eq_self
  intro fr hf
  rw [owner?, hf, Option.bind_some] at h
  rw [← h]

theorem rebind_eq_self (ho : t.owner? f = some id) (hp : ¬t.Pinned f) :
    ((((t.unbind f).pin f).bind f id).unpin f) = t := by
  simp only [unbind, pin, bind, unpin, modify_modify]
  apply modify_eq_self
  intro fr hf
  have hpin : fr.pinned = false := by
    by_contra h
    exact hp ⟨fr, hf, by simpa using h⟩
  rw [owner?, hf, Option.bind_some] at ho
  rw [← ho, ← hpin]

theorem get?_push (fr : Frame) :
    (t.push fr).2.get? f = if f.index = t.size then some fr else t.get? f := by
  simp only [push, get?, Array.getElem?_push, size]
  rfl

theorem owner?_push : (t.push { page := p, pinned := true }).2.owner? = t.owner? := by
  funext k
  rw [owner?, get?_push, owner?]
  split
  next h => rw [get?_eq_none_of_size_le (Nat.le_of_eq h.symm)]; rfl
  next => rfl

theorem phys?_push (fr : Frame) :
    (t.push fr).2.phys? = Function.update t.phys? ⟨t.size⟩ (some fr.page) := by
  funext k
  obtain ⟨i⟩ := k
  rw [phys?, get?_push, Function.update_apply]
  by_cases h : i = t.size <;> simp [h, phys?]

theorem physPages_push (fr : Frame) : (t.push fr).2.physPages = t.physPages ++ [fr.page] := by
  simp [physPages, push]

@[simp]
theorem size_bind : (t.bind f id).size = t.size := size_modify t f _

@[simp]
theorem size_unbind : (t.unbind f).size = t.size := size_modify t f _

@[simp]
theorem size_pin : (t.pin f).size = t.size := size_modify t f _

@[simp]
theorem size_unpin : (t.unpin f).size = t.size := size_modify t f _

@[simp]
theorem physPages_bind : (t.bind f id).physPages = t.physPages := physPages_modify fun _ => rfl

@[simp]
theorem physPages_unbind : (t.unbind f).physPages = t.physPages := physPages_modify fun _ => rfl

@[simp]
theorem physPages_pin : (t.pin f).physPages = t.physPages := physPages_modify fun _ => rfl

@[simp]
theorem physPages_unpin : (t.unpin f).physPages = t.physPages := physPages_modify fun _ => rfl

end Pager.FrameTable
