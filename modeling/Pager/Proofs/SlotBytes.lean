import Pager.Proofs.FileBytes
import Pager.Swap
import Mathlib.Logic.Function.Basic

namespace Pager.Swap

open Step

variable {w : Swap} {slot : Slot} {b : PageBytes}

def sectorAt (w : Swap) (n : Nat) : SectorBytes :=
  ((w.disk.map Disk.sectors).getD {}).get n

def stored (w : Swap) (slot : Slot) : PageBytes :=
  Vector.ofFn (fun i => (w.sectorAt (slot.index * sectorsPerPage + i / sectorSize)).toArray.getD
    (i % sectorSize) 0)

/-- A slot whose sector numbers do not overflow. -/
def Addressable (slot : Slot) : Prop := slot.index * sectorsPerPage < wordBound

theorem stored_congr {w w' : Swap}
    (h : ∀ i < sectorsPerPage, w'.sectorAt (slot.index * sectorsPerPage + i) =
      w.sectorAt (slot.index * sectorsPerPage + i)) : w'.stored slot = w.stored slot := by
  apply Vector.ext
  intro i hi
  rw [stored, stored, Vector.getElem_ofFn, Vector.getElem_ofFn]
  rw [h (i / sectorSize) (by simp only [sectorSize, sectorsPerPage, pageSize] at hi ⊢; omega)]

theorem getElem?_stored {i : Nat} (hi : i < pageSize) :
    (w.stored slot)[i]? =
      (w.sectorAt (slot.index * sectorsPerPage + i / sectorSize))[i % sectorSize]? := by
  have hm : i % sectorSize < sectorSize := Nat.mod_lt _ (by decide)
  rw [Vector.getElem?_eq_getElem hi, stored, Vector.getElem_ofFn, Vector.getElem?_eq_getElem hm]
  simp [Array.getD, hm]

theorem getElem?_sectorOfPage {i j : Nat} (hj : j < sectorSize)
    (hi : i * sectorSize + j < pageSize) :
    (sectorOfPage b i)[j]? = b[i * sectorSize + j]? := by
  rw [Vector.getElem?_eq_getElem hj, Vector.getElem?_eq_getElem hi, sectorOfPage,
    Vector.getElem_ofFn]
  simp only [Array.getD_eq_getD_getElem?, Vector.getElem?_toArray, Vector.getElem?_eq_getElem hi,
    Option.getD_some]

def Wrote (n : Nat) (x : SectorBytes) (w w' : Swap) : Prop :=
  w'.bitmap = w.bitmap ∧ w'.sectorAt = Function.update w.sectorAt n x

theorem writeSector_ends (n : Nat) (x : SectorBytes) :
    Ends (onDisk (Disk.write n x)) w (fun _ w' => Wrote n x w w')
      (fun e w' => (∃ k, e = .errno k) ∧ w'.bitmap = w.bitmap ∧ w'.sectorAt = w.sectorAt) := by
  have hup (d : Disk) (hd : w.disk = some d) :
      (fun k => (d.sectors.set n x).get k) = Function.update w.sectorAt n x := by
    funext k
    simp only [Store.get_set, sectorAt, hd, Option.map_some, Option.getD_some,
      Function.update_apply, eq_comm (a := k)]
  unfold Ends onDisk
  cases hd : w.disk with
  | none => exact ⟨⟨_, rfl⟩, rfl, rfl⟩
  | some d =>
      simp only [zoom, Disk.write]
      rcases d.writeTrap.ask with ⟨_ | _, t⟩
      · by_cases hn : n < d.count
        · simp only [if_pos hn]
          exact ⟨rfl, hup d hd⟩
        · simp only [if_neg hn]
          refine ⟨⟨_, rfl⟩, trivial, ?_⟩
          funext k
          simp [sectorAt, hd]
      · refine ⟨⟨_, rfl⟩, rfl, ?_⟩
        funext k
        simp [sectorAt, hd]

theorem readSector_ends (n : Nat) :
    Ends (onDisk (Disk.read n)) w
      (fun x w' => x = w.sectorAt n ∧ w'.bitmap = w.bitmap ∧ w'.sectorAt = w.sectorAt)
      (fun e w' => (∃ k, e = .errno k) ∧ w'.bitmap = w.bitmap ∧ w'.sectorAt = w.sectorAt) := by
  unfold Ends onDisk
  cases hd : w.disk with
  | none => exact ⟨⟨_, rfl⟩, rfl, rfl⟩
  | some d =>
      have hsame (t : Trap) : sectorAt { w with disk := some { d with readTrap := t } } =
          w.sectorAt := by
        funext k
        simp [sectorAt, hd]
      simp only [zoom, Disk.read]
      rcases d.readTrap.ask with ⟨_ | _, t⟩
      · by_cases hn : n < d.count
        · simp only [if_pos hn]
          exact ⟨by simp [sectorAt, hd], trivial, hsame t⟩
        · simp only [if_neg hn]
          exact ⟨⟨_, rfl⟩, trivial, hsame t⟩
      · exact ⟨⟨_, rfl⟩, rfl, hsame t⟩

theorem sector_eq (h : Addressable slot) (i : Nat) :
    sector slot i = .ok (slot.index * sectorsPerPage + i) :=
  if_pos h

theorem writeSectors_ends (h : Addressable slot) (is : List Nat) :
    Ends (writeSectors slot b is) w
      (fun _ w' => w'.bitmap = w.bitmap ∧ ∀ n, w'.sectorAt n =
        if slot.index * sectorsPerPage ≤ n ∧ n - slot.index * sectorsPerPage ∈ is then
          sectorOfPage b (n - slot.index * sectorsPerPage)
        else w.sectorAt n)
      (fun e w' => (∃ k, e = .errno k) ∧ w'.bitmap = w.bitmap ∧
        ∀ n, ¬(slot.index * sectorsPerPage ≤ n ∧ n - slot.index * sectorsPerPage ∈ is) →
          w'.sectorAt n = w.sectorAt n) := by
  induction is generalizing w with
  | nil => simp [writeSectors]
  | cons i is ih =>
      simp only [writeSectors, ends_bind, ends_ofExcept, sector_eq h, Except.ok.injEq,
        forall_eq', reduceCtorEq, false_implies, implies_true, and_true]
      apply (writeSector_ends _ _).mono
      · intro _ w₁ h
        obtain ⟨hb₁, hs₁⟩ := h
        apply ih.mono
        · intro _ w₂ h
          obtain ⟨hb₂, hs₂⟩ := h
          refine ⟨hb₂.trans hb₁, fun n => ?_⟩
          rw [hs₂ n, hs₁, Function.update_apply]
          by_cases hn : slot.index * sectorsPerPage ≤ n
          · by_cases hi : n - slot.index * sectorsPerPage = i
            · have hni : n = slot.index * sectorsPerPage + i := by omega
              simp [hni]
            · have hni : n ≠ slot.index * sectorsPerPage + i := by omega
              simp [hn, hi, hni]
          · have hni : n ≠ slot.index * sectorsPerPage + i := by omega
            simp [hn, hni]
        · intro e w₂ h
          obtain ⟨he, hb₂, hs₂⟩ := h
          refine ⟨he, hb₂.trans hb₁, fun n hn => ?_⟩
          have hni : n ≠ slot.index * sectorsPerPage + i := by
            rintro rfl
            exact hn ⟨by omega, by simp⟩
          rw [hs₂ n fun h => hn ⟨h.1, List.mem_cons_of_mem _ h.2⟩, hs₁,
            Function.update_of_ne hni]
      · intro e w₁ h
        obtain ⟨he, hb₁, hs₁⟩ := h
        exact ⟨he, hb₁, fun n _ => by rw [hs₁]⟩

theorem write_ends (h : Addressable slot) :
    Ends (write slot b) w
      (fun _ w' => w'.bitmap = w.bitmap ∧ w'.stored = Function.update w.stored slot b)
      (fun e w' => (∃ k, e = .errno k) ∧ w'.bitmap = w.bitmap ∧
        ∀ s, s ≠ slot → w'.stored s = w.stored s) := by
  have hother {s : Slot} (hs : s ≠ slot) {i : Nat} (hi : i < sectorsPerPage) :
      ¬(slot.index * sectorsPerPage ≤ s.index * sectorsPerPage + i ∧
        s.index * sectorsPerPage + i - slot.index * sectorsPerPage ∈
          List.range sectorsPerPage) := by
    have : s.index ≠ slot.index := fun he => hs (by cases s; cases slot; simp_all)
    simp only [List.mem_range, sectorsPerPage] at hi ⊢
    omega
  simp only [write, ends_bind, ends_get, ends_require]
  refine ⟨fun _ => (writeSectors_ends h _).mono ?_ ?_, fun _ => ⟨⟨_, rfl⟩, trivial, by simp⟩⟩
  · intro _ w' h
    obtain ⟨hb, hs⟩ := h
    refine ⟨hb, funext fun s => ?_⟩
    by_cases hsl : s = slot
    · subst hsl
      rw [Function.update_self]
      apply Bytes.ext_getElem?
      intro i hi
      have hd : i / sectorSize < sectorsPerPage := by
        simp only [sectorSize, sectorsPerPage, pageSize] at hi ⊢
        omega
      have hdm : i / sectorSize * sectorSize + i % sectorSize = i := Nat.div_add_mod' i sectorSize
      rw [getElem?_stored hi, hs, if_pos ⟨Nat.le_add_right _ _, by simpa using hd⟩,
        Nat.add_sub_cancel_left,
        getElem?_sectorOfPage (Nat.mod_lt _ (by decide)) (by rwa [hdm]), hdm]
    · rw [Function.update_of_ne hsl]
      exact stored_congr fun i hi => by rw [hs, if_neg (hother hsl hi)]
  · intro e w' h
    obtain ⟨he, hb, hs⟩ := h
    exact ⟨he, hb, fun s hsl => stored_congr fun i hi => hs _ (hother hsl hi)⟩

def overlay (i : Nat) (b old : PageBytes) : PageBytes :=
  Bytes.splice old 0 (b.toList.take (i * sectorSize))

theorem getElem?_overlay (i : Nat) (b old : PageBytes) {j : Nat} (hj : j < pageSize) :
    (overlay i b old)[j]? = if j / sectorSize < i then b[j]? else old[j]? := by
  have hdiv : j / sectorSize < i ↔ j < i * sectorSize := Nat.div_lt_iff_lt_mul (by decide)
  rw [overlay, Bytes.getElem?_splice, List.length_take, Vector.length_toList]
  by_cases h : j / sectorSize < i
  · have := hdiv.mp h
    rw [if_pos (by omega), if_pos h, Nat.sub_zero, List.getElem?_take_of_lt this]
    simp
  · have := hdiv.not.mp h
    rw [if_neg (by omega), if_neg h]

theorem getElem?_splice_sector (w : Swap) (slot : Slot) (b : PageBytes) (i : Nat) (is : List Nat)
    {j : Nat} (hj : j < pageSize) :
    (if j / sectorSize ∈ is then (w.stored slot)[j]?
      else (Bytes.splice b (i * sectorSize)
        (w.sectorAt (slot.index * sectorsPerPage + i)).toList)[j]?) =
      if j / sectorSize ∈ i :: is then (w.stored slot)[j]? else b[j]? := by
  have hm : j % sectorSize < sectorSize := Nat.mod_lt _ (by decide)
  have hdm : j / sectorSize * sectorSize + j % sectorSize = j := Nat.div_add_mod' j sectorSize
  by_cases hmem : j / sectorSize ∈ is
  · rw [if_pos hmem, if_pos (List.mem_cons_of_mem _ hmem)]
  · rw [if_neg hmem, Bytes.getElem?_splice, Vector.length_toList]
    by_cases hji : j / sectorSize = i
    · rw [if_pos (by subst hji; omega), if_pos (by simp [hji]), getElem?_stored hj, hji,
        show j - i * sectorSize = j % sectorSize by subst hji; omega]
      simp
    · rw [if_neg, if_neg (by simp [hji, hmem])]
      simp only [sectorSize] at hji ⊢
      omega

theorem readSectors_ends (h : Addressable slot) (is : List Nat)
    (his : ∀ i ∈ is, i < sectorsPerPage) :
    Ends (readSectors slot is) (w, b)
      (fun _ t => t.1.bitmap = w.bitmap ∧ t.1.stored = w.stored ∧ ∀ j < pageSize,
        t.2[j]? = if j / sectorSize ∈ is then (w.stored slot)[j]? else b[j]?)
      (fun e t => (∃ k, e = .errno k) ∧ t.1.bitmap = w.bitmap ∧ t.1.stored = w.stored ∧
        ∃ done rest, is = done ++ rest ∧ rest ≠ [] ∧ ∀ j < pageSize,
          t.2[j]? = if j / sectorSize ∈ done then (w.stored slot)[j]? else b[j]?) := by
  have hkeep {w' : Swap} (hs : w'.sectorAt = w.sectorAt) : w'.stored = w.stored :=
    funext fun s => stored_congr fun i _ => by rw [hs]
  induction is generalizing w b with
  | nil => simp [readSectors]
  | cons i is ih =>
      have hi : i < sectorsPerPage := his i (by simp)
      simp only [readSectors, ends_bind, ends_ofExcept, sector_eq h, Except.ok.injEq,
        forall_eq', reduceCtorEq, false_implies, implies_true, and_true, ends_zoom, ends_modify]
      apply (readSector_ends _).mono
      · intro x w₁ h
        obtain ⟨hx, hb₁, hs₁⟩ := h
        have hst₁ := hkeep hs₁
        refine (ih (fun j hj => his j (List.mem_cons_of_mem _ hj)) (w := w₁)
          (fun hs => funext fun s => stored_congr fun i _ => by rw [hs])).mono ?_ ?_
        · rintro _ ⟨w₂, b₂⟩ ⟨hb₂, hs₂, hp₂⟩
          refine ⟨hb₂.trans hb₁, hs₂.trans hst₁, fun j hj => ?_⟩
          rw [hp₂ j hj, hst₁, hx, getElem?_splice_sector w slot b i is hj]
        · rintro e ⟨w₂, b₂⟩ ⟨he, hb₂, hs₂, done, rest, rfl, hne, hp₂⟩
          refine ⟨he, hb₂.trans hb₁, hs₂.trans hst₁, i :: done, rest, rfl, hne, fun j hj => ?_⟩
          rw [hp₂ j hj, hst₁, hx, getElem?_splice_sector w slot b i done hj]
      · intro e w₁ h
        obtain ⟨he, hb₁, hs₁⟩ := h
        exact ⟨he, hb₁, hkeep hs₁, [], i :: is, rfl, by simp, by simp⟩

/-- Reading a slot that is in use gives the page and changes no slot. An error
leaves the sectors that came before it. -/
theorem read_ends (h : Addressable slot) (hu : w.isUsed slot = true) :
    Ends (read slot) (w, b)
      (fun _ t => t.1.bitmap = w.bitmap ∧ t.1.stored = w.stored ∧ t.2 = w.stored slot)
      (fun e t => (∃ k, e = .errno k) ∧ t.1.bitmap = w.bitmap ∧ t.1.stored = w.stored ∧
        ∃ i < sectorsPerPage, t.2 = overlay i (w.stored slot) b) := by
  simp only [read, ends_bind, ends_get, ends_require, ends_demand, hu, true_implies,
    Bool.true_eq_false, false_implies, and_true]
  refine ⟨fun _ => (readSectors_ends h _ (by simp)).mono ?_ ?_,
    fun _ => ⟨⟨_, rfl⟩, trivial, trivial, 0, by decide, ?_⟩⟩
  · intro _ t h
    obtain ⟨hb, hs, hp⟩ := h
    refine ⟨hb, hs, Bytes.ext_getElem? fun j hj => ?_⟩
    rw [hp j hj, if_pos]
    simp only [List.mem_range, sectorSize, sectorsPerPage, pageSize] at hj ⊢
    omega
  · rintro e t ⟨he, hb, hs, done, rest, hr, hne, hp⟩
    have hlen := congrArg List.length hr
    have hrest := List.length_pos_iff.mpr hne
    rw [List.length_range, List.length_append] at hlen
    have hdone : done = List.range done.length := by
      have := congrArg (List.take done.length) hr
      rwa [List.take_left, List.take_range, Nat.min_eq_left (by omega), eq_comm] at this
    refine ⟨he, hb, hs, done.length, by omega, Bytes.ext_getElem? fun j hj => ?_⟩
    rw [hp j hj, getElem?_overlay _ _ _ hj, hdone, List.length_range]
    simp only [List.mem_range]
  · refine Bytes.ext_getElem? fun j hj => ?_
    rw [getElem?_overlay _ _ _ hj, if_neg (Nat.not_lt_zero _)]

theorem free_ends (hu : w.isUsed slot = true) (hn : 0 < w.bitmap.used) :
    Ends (free slot) w
      (fun _ t => t = { w with bitmap := w.bitmap.unmark slot.index }) (fun _ _ => False) := by
  simp [free, hu, Nat.ne_of_gt hn]

theorem takeBack_ends (h : Addressable slot) (hu : w.isUsed slot = true)
    (hn : 0 < w.bitmap.used) :
    Ends (takeBack slot) (w, b)
      (fun _ t => t.1.bitmap = w.bitmap.unmark slot.index ∧ t.1.stored = w.stored ∧
        t.2 = w.stored slot)
      (fun e t => (∃ k, e = .errno k) ∧ t.1.bitmap = w.bitmap ∧ t.1.stored = w.stored) := by
  rw [takeBack, ends_bind]
  refine (read_ends h hu).mono ?_ fun _ _ h => ⟨h.1, h.2.1, h.2.2.1⟩
  intro _ t h
  obtain ⟨hb, hs, hp⟩ := h
  have hu' : t.1.isUsed slot = true := by rw [isUsed, hb]; exact hu
  simp only [ends_zoom]
  refine (free_ends hu' (by rw [hb]; exact hn)).mono ?_ fun _ _ h => h.elim
  rintro _ u rfl
  exact ⟨by rw [hb], hs, hp⟩

end Pager.Swap
