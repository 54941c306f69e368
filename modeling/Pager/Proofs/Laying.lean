import Pager.Proofs.Evolving

namespace Pager.Machine

open Step

variable {m t : Machine} {s : SpaceId} {a : VirtAddr} {len offset : Nat} {writable : Bool}
  {file : FileId} {v : VirtPage}

/-- What a file and a range of addresses have to be like so that the file can be
mapped there. -/
structure Mappable (m : Machine) (s : SpaceId) (a : VirtAddr) (len : Nat) (file : FileId)
    (offset : Nat) : Prop where
  pos : 0 < len
  aligned : a.aligned = true
  offset_aligned : offset % pageSize = 0
  user : a.isNull = false ∧ a.toNat + len ≤ m.config.kernelBase.toNat
  nonempty : (m.files.get file).size ≠ 0
  bounded : offset + pagesFor len * pageSize < wordBound
  free : ∀ i < pagesFor len, m.page? ⟨s, a.page.plus i⟩ = none
  reopens : (m.files.get file).reopenTrap.ask.1 = false

structure Lays (m : Machine) (s : SpaceId) (v : VirtPage) (is : List Nat) (page : Nat → Page)
    (t : Machine) : Prop where
  laid : ∀ i ∈ is, t.page? ⟨s, v.plus i⟩ = some (page i)
  others : ∀ id, (∀ i ∈ is, id ≠ ⟨s, v.plus i⟩) → t.page? id = m.page? id
  rest : t.layout = { m.layout with page := t.page? }

theorem Lays.of_eq {page : Nat → Page} {is : List Nat} {t' : Machine}
    (h : m.Lays s v is page t) (ht : t'.layout = t.layout) : m.Lays s v is page t' := by
  have hp : t'.page? = t.page? := congrArg Layout.page ht
  exact ⟨by rw [hp]; exact h.laid, by rw [hp]; exact h.others, by rw [ht, hp]; exact h.rest⟩

theorem registerAll_lays (page : Nat → Page) (done : List VirtPage) (is : List Nat)
    (hlt : ∀ i ∈ is, v.toNat + i < wordBound) (hn : is.Pairwise (fun i j => v.plus i ≠ v.plus j))
    (hp : ∀ i ∈ is, m.page? ⟨s, v.plus i⟩ = none) :
    Ends (registerAll s v page done is) m (fun _ t => m.Lays s v is page t)
      (fun _ _ => False) := by
  induction is generalizing m done with
  | nil => exact ⟨by simp, fun _ _ => rfl, rfl⟩
  | cons i is ih =>
      obtain ⟨hi, hn⟩ := List.pairwise_cons.mp hn
      have hne (j : Nat) (hj : j ∈ is) : (⟨s, v.plus i⟩ : PageId) ≠ ⟨s, v.plus j⟩ :=
        fun he => hi j hj (PageId.mk.inj he).2
      have hfirst : m.layout.page ⟨s, v.plus i⟩ = none := hp i List.mem_cons_self
      simp only [registerAll, VirtPage.add?_eq_some (hlt i List.mem_cons_self), ends_bind,
        ends_ofOption, ends_handle, ends_register hfirst, Option.some.injEq, forall_eq',
        reduceCtorEq, false_imp_iff, and_true]
      refine (ih (v.plus i :: done) (fun j hj => hlt j (List.mem_cons_of_mem _ hj)) hn
        fun j hj => ?_).mono ?_ fun _ _ h => h
      · rw [page?_setPage, if_neg (hne j hj)]
        exact hp j (List.mem_cons_of_mem _ hj)
      · rintro _ t ⟨hlaid, hothers, hrest⟩
        refine ⟨fun j hj => ?_, fun id hid => ?_, ?_⟩
        · rcases List.mem_cons.mp hj with rfl | hj
          · rw [hothers _ hne, page?_setPage, if_pos rfl]
          · exact hlaid j hj
        · rw [hothers id fun j hj => hid j (List.mem_cons_of_mem _ hj), page?_setPage,
            if_neg (hid i List.mem_cons_self).symm]
        · rw [hrest, layout_setPage]

theorem overlaps_eq_false {count : Nat} (hb : v.toNat + count ≤ wordBound)
    (h : ∀ i < count, m.page? ⟨s, v.plus i⟩ = none) : m.overlaps s v count = false := by
  rw [overlaps, List.any_eq_false]
  intro w hw
  simp only [Bool.and_eq_true, decide_eq_true_eq, not_and]
  intro hle hlt
  obtain ⟨i, hi⟩ := Nat.exists_eq_add_of_le hle
  have hplus : v.plus i = w := by
    rw [VirtPage.mk.injEq, ← UInt64.toNat_inj]
    exact (toNat_plus (by omega)).trans hi.symm
  have hnone := h i (by omega)
  rw [PageMap.mem_keys, PageMap.contains, ← hplus] at hw
  rw [Option.isSome_iff_ne_none] at hw
  exact hw hnone

theorem mmap_lays :
    Ends (mmap s a len writable file offset) m
      (fun r t => r = a ∧ m.Mappable s a len file offset ∧
        m.Lays s a.page (List.range (pagesFor len))
          (mappedPages (m.files.get file).data len writable file offset) t)
      (fun e t => ¬m.Mappable s a len file offset ∧ (∃ k, e = .errno k) ∧
        t.layout = m.layout) := by
  simp only [mmap, ends_bind, ends_get, ends_require, ends_requireOr, ends_onFile, ends_note,
    ends_pure]
  refine ⟨fun hlen => ⟨fun huser => ⟨fun hsize => ⟨fun hlt => ⟨fun hov => ?_, fun hov => ?_⟩,
    fun hlt => ?_⟩, fun hsize => ?_⟩, fun huser => ?_⟩, fun hlen => ?_⟩
  · have hb := toNat_page_add_le huser
    simp only [Config.isUserRange, Bool.and_eq_true, Bool.not_eq_true', decide_eq_true_eq,
      bne_iff_ne, beq_iff_eq] at hlen huser hsize hlt hov
    have hfree (i : Nat) (hi : i < pagesFor len) : m.page? ⟨s, a.page.plus i⟩ = none :=
      page_eq_none_of_overlaps hov hb hi
    refine reopen_ends.mono ?_ ?_
    · rintro _ d ⟨hreopen, hd⟩
      have hl := layout_withFile_same m hd
      have hpages : (m.withFile file d).page? = m.page? := rfl
      refine (registerAll_lays (m := m.withFile file d) _ [] (List.range (pagesFor len))
        (fun i hi => by have := List.mem_range.mp hi; omega)
        (List.Pairwise.imp_of_mem (fun hi hj hlt he => absurd
          (plus_inj hb (List.mem_range.mp hi) (List.mem_range.mp hj) he) (Nat.ne_of_lt hlt))
          List.pairwise_lt_range)
        fun i hi => hfree i (List.mem_range.mp hi)).mono ?_ fun _ _ h => h.elim
      intro _ t h
      have hlays : m.Lays s a.page _ _ t := ⟨h.laid, h.others, by rw [h.rest, hl]⟩
      have hhead := h.laid 0 (List.mem_range.mpr (pagesFor_pos (by omega)))
      rw [plus_zero] at hhead
      rw [ends_demandHead (canHead_of_unloaded hhead rfl)]
      exact ⟨trivial, ⟨by omega, hlen.1.2, hlen.2, huser, hsize, hlt, hfree, hreopen⟩,
        hlays.of_eq (layout_emit _ rfl)⟩
    · rintro e d ⟨hreopen, hd⟩
      refine ⟨fun h => ?_, ⟨e, rfl⟩, layout_withFile_same m hd⟩
      rw [h.reopens] at hreopen
      cases hreopen
  · refine ⟨fun h => ?_, ⟨_, rfl⟩, layout_emit _ rfl⟩
    rw [overlaps_eq_false (toNat_page_add_le huser) h.free] at hov
    cases hov
  · exact ⟨fun h => of_decide_eq_false hlt h.bounded, ⟨_, rfl⟩, trivial⟩
  · exact ⟨fun h => h.nonempty (by simpa using hsize), ⟨_, rfl⟩, trivial⟩
  · refine ⟨fun h => ?_, ⟨_, rfl⟩, trivial⟩
    simp [Config.isUserRange, h.user] at huser
  · refine ⟨fun h => ?_, ⟨_, rfl⟩, trivial⟩
    simp [h.pos.ne', h.aligned, h.offset_aligned] at hlen

end Pager.Machine
